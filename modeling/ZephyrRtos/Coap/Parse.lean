import Mathlib.Algebra.Order.Group.Nat

/-! The parser for the options of a CoAP message. -/

namespace ZephyrRtos.Coap

open List

/-- `fault` is an access outside of the data, or a loop that does not end. -/
inductive Error
  | inval
  | badmsg
  | ilseq
  | fault
  deriving DecidableEq

structure CoapOption where
  delta : ℕ
  value : List UInt8
  deriving DecidableEq

structure Packet where
  data : List UInt8
  offset : ℕ
  maxLen : ℕ
  hdrLen : ℕ
  optLen : ℕ
  delta : ℕ
  deriving DecidableEq

section

variable (data : List UInt8) (maxLen : ℕ)

def readU8 (offset : ℕ) : Except Error (ℕ × ℕ) :=
  if maxLen - offset < 1 then .error .inval
  else match data[offset]? with
  | some v => .ok (v.toNat, offset + 1)
  | none => .error .fault

def readBe16 (offset : ℕ) : Except Error (ℕ × ℕ) :=
  if maxLen - offset < 2 then .error .inval
  else match data[offset]?, data[offset + 1]? with
  | some h, some l => .ok (h.toNat * 256 + l.toNat, offset + 2)
  | _, _ => .error .fault

def u16 (n : ℕ) : ℕ := n % 2 ^ 16

def decodeDelta (offset opt : ℕ) : Except Error (ℕ × ℕ) :=
  if opt = 13 then (readU8 data maxLen offset).map fun r => (r.1 + 13, r.2)
  else if opt = 14 then (readBe16 data maxLen offset).map fun r => (u16 (r.1 + 269), r.2)
  else if opt = 15 then .error .inval
  else .ok (opt, offset)

/-- `room` is the size of the value that is to be filled in, if any; it is not looked at behind the
marker, where no option is returned. -/
def parseOption (room : Option ℕ) (offset optDelta optLen : ℕ) :
    Except Error (Option (CoapOption × ℕ × ℕ)) := do
  let (opt, pos) ← readU8 data maxLen offset
  if opt = 0xFF then
    if pos < maxLen then return none else throw .inval
  let optLen := u16 (optLen + 1)
  let len := opt % 16
  if pos = maxLen ∧ 12 < opt / 16 then throw .inval
  let (delta, pos₁) ← decodeDelta data maxLen pos (opt / 16)
  if 12 < opt / 16 ∧ pos₁ = maxLen ∧ 12 < len then throw .inval
  let optLen := optLen + (pos₁ - pos)
  if 2 ^ 16 ≤ optLen then throw .inval
  let (len, pos₂) ← decodeDelta data maxLen pos₁ len
  let optLen := optLen + (pos₂ - pos₁)
  if 2 ^ 16 ≤ optLen then throw .inval
  if 2 ^ 16 ≤ optDelta + delta ∨ 2 ^ 16 ≤ optLen + len then throw .inval
  if pos₂ = maxLen ∧ len ≠ 0 then throw .inval
  if room.any (· < len) then throw .inval
  if maxLen < pos₂ + len then throw .inval
  if data.length < pos₂ + len then throw .fault
  return some (⟨optDelta + delta, (data.drop pos₂).take len⟩, pos₂ + len, optLen + len)

/-- The first `num` options are stored, with room for `room` bytes each. -/
def parseLoop (room : ℕ) :
    ℕ → ℕ → ℕ → ℕ → ℕ → Except Error (ℕ × ℕ × List CoapOption)
  | 0, _, _, _, _ => .error .fault
  | fuel + 1, num, offset, delta, optLen => do
    match ← parseOption data maxLen (if 0 < num then some room else none) offset delta optLen with
    | none => return (delta, optLen, [])
    | some (o, pos, optLen) =>
      (if pos = maxLen then .ok (o.delta, optLen, [])
      else parseLoop room fuel (num - 1) pos o.delta optLen).map fun r =>
        (r.1, r.2.1, if 0 < num then o :: r.2.2 else r.2.2)

end

/-- What both parsers do behind the header. -/
def parseOptions (data : List UInt8) (num room hdrLen : ℕ) :
    Except Error (Packet × List CoapOption) :=
  if data.length < hdrLen then .error .badmsg
  else if hdrLen = data.length then .ok (⟨data, data.length, data.length, hdrLen, 0, 0⟩, [])
  else match parseLoop data data.length room data.length num hdrLen 0 0 with
  | .ok (delta, optLen, os) => .ok (⟨data, data.length, data.length, hdrLen, optLen, delta⟩, os)
  | .error e => .error (if e = .fault then .fault else .ilseq)

def coapPacketParse (data : List UInt8) (num room : ℕ) : Except Error (Packet × List CoapOption) :=
  if data.length < 4 then .error .inval
  else match data[0]? with
  | none => .error .fault
  | some b =>
    if 8 < b.toNat % 16 then .error .badmsg else parseOptions data num room (4 + b.toNat % 16)

/-- A field of an option with its extension, as RFC 7252 defines it, and what is behind it. -/
def field (n : ℕ) (l : List UInt8) : Option (ℕ × List UInt8) :=
  if n < 13 then some (n, l)
  else match n, l with
  | 13, b :: l => some (b.toNat + 13, l)
  | 14, h :: b :: l => some (h.toNat * 256 + b.toNat + 269, l)
  | _, _ => none

def header : List UInt8 → Option (ℕ × ℕ × List UInt8)
  | [] => none
  | b :: l =>
    (field (b.toNat / 16) l).bind fun (delta, l) =>
      (field (b.toNat % 16) l).map fun (len, l) => (delta, len, l)

/-- The option at the front, after one with the number `prev`, if `cut` is done to both fields: `id`
is what RFC 7252 says. -/
def option (cut : ℕ → ℕ) (prev : ℕ) (bytes : List UInt8) : Option (CoapOption × List UInt8) :=
  (header bytes).bind fun (delta, len, l) =>
    if prev + cut delta < 2 ^ 16 ∧ cut len ≤ l.length then
      some (⟨prev + cut delta, l.take (cut len)⟩, l.drop (cut len))
    else none

/-- Options, which may be followed by a payload. -/
inductive Options (cut : ℕ → ℕ) : ℕ → List UInt8 → List CoapOption → List UInt8 → Prop
  | nil : Options cut n [] [] []
  | payload : p ≠ [] → Options cut n (0xFF :: p) [] p
  | cons : option cut n bytes = some (o, l) → Options cut o.delta l os p →
      Options cut n bytes (o :: os) p

/-- One of the options has a field of more than 16 bits. -/
inductive Wraps : ℕ → List UInt8 → Prop
  | here : header bytes = some (delta, len, l) → 2 ^ 16 ≤ delta ∨ 2 ^ 16 ≤ len → Wraps n bytes
  | later : option id n bytes = some (o, l) → Wraps o.delta l → Wraps n bytes

variable {data l bytes : List UInt8} {o prev optLen : ℕ}

structure At (data : List UInt8) (o : ℕ) (l : List UInt8) : Prop where
  length : o + l.length = data.length
  drop : data.drop o = l

theorem At.next (h : At data o (b :: l)) : data[o]? = some b ∧ At data (o + 1) l := by
  have hlen := h.length
  rw [length_cons] at hlen
  refine ⟨?_, by omega, ?_⟩
  · rw [← head?_drop, h.drop]
    rfl
  · rw [← tail_drop, h.drop]
    rfl

theorem At.readU8 (h : At data o (b :: l)) : readU8 data data.length o = .ok (b.toNat, o + 1) := by
  have hlen := h.next.2.length
  rw [Coap.readU8, if_neg (by omega), h.next.1]

theorem u16_of_lt (h : n < 2 ^ 16) : u16 n = n := Nat.mod_eq_of_lt h

theorem At.decodeDelta (h : At data o l) (hf : field n l = some (v, l')) :
    ∃ o', decodeDelta data data.length o n = .ok (u16 v, o') ∧ At data o' l' ∧ o ≤ o' ∧
      (12 < n → o < o') := by
  unfold field at hf
  split at hf
  · cases hf
    refine ⟨o, ?_, h, le_refl o, by omega⟩
    rw [Coap.decodeDelta, if_neg (by omega), if_neg (by omega), if_neg (by omega),
      u16_of_lt (by omega)]
  split at hf
  · next b l _ =>
    cases hf
    have hb := b.toNat_lt
    refine ⟨o + 1, ?_, h.next.2, by omega, by omega⟩
    rw [Coap.decodeDelta, if_pos rfl, h.readU8, Except.map, u16_of_lt (by omega)]
  · cases hf
    have hc := h.next.2.next
    have hlen := hc.2.length
    refine ⟨o + 2, ?_, hc.2, by omega, by omega⟩
    rw [Coap.decodeDelta, if_neg (by decide), if_pos rfl, readBe16, if_neg (by omega), h.next.1, hc.1]
    rfl
  · cases hf

theorem At.decodeDelta_error (h : At data o l) (hf : field n l = none) (hn : n < 16) :
    Coap.decodeDelta data data.length o n = .error .inval := by
  have hlen := h.length
  obtain hn | rfl | rfl | rfl : n < 13 ∨ n = 13 ∨ n = 14 ∨ n = 15 := by omega
  · simp [field, hn] at hf
  · obtain rfl : l = [] := by cases l <;> simp [field] at hf ⊢
    rw [Coap.decodeDelta, if_pos rfl, Coap.readU8, if_pos (by simp at hlen; omega)]
    rfl
  · have hl : l.length < 2 := by
      match l with
      | [] | [_] => simp
      | _ :: _ :: _ => simp [field] at hf
    rw [Coap.decodeDelta, if_neg (by decide), if_pos rfl, readBe16, if_pos (by omega)]
    rfl
  · rfl

theorem At.parseOption (room : Option ℕ) (h : At data o bytes)
    (hx : option u16 prev bytes = some (x, l)) (hdata : data.length < 2 ^ 16) (hopt : optLen ≤ o) :
    ∃ o', At data o' l ∧ o < o' ∧
      parseOption data data.length room o prev optLen = if room.any (· < x.value.length)
        then .error .inval else .ok (some (x, o', optLen + (o' - o))) := by
  obtain ⟨⟨delta, len, l₁⟩, hhead, hx⟩ := Option.bind_eq_some_iff.1 hx
  obtain ⟨⟨hprev, hlen⟩, heq⟩ := Option.ite_none_right_eq_some.1 hx
  cases heq
  cases bytes with
  | nil => cases hhead
  | cons b l₀ =>
    obtain ⟨⟨delta, l₂⟩, hf, hhead⟩ := Option.bind_eq_some_iff.1 hhead
    obtain ⟨⟨len, l₃⟩, hf', heq⟩ := Option.map_eq_some_iff.1 hhead
    cases heq
    obtain ⟨o₁, hd₁, h₁, hle₁, hlt₁⟩ := h.next.2.decodeDelta hf
    obtain ⟨o₂, hd₂, h₂, hle₂, hlt₂⟩ := h₁.decodeDelta hf'
    have hlen₂ := h₂.length
    have hb : b.toNat ≠ 255 := by
      intro hb
      simp [hb, field] at hf
    refine ⟨o₂ + u16 len, ⟨by simp; omega, by rw [← drop_drop, h₂.drop]⟩, by omega, ?_⟩
    simp only [Coap.parseOption, h.readU8, bind, Except.bind, pure, Except.pure, throw, throwThe,
      MonadExceptOf.throw, hd₁, hd₂, if_neg hb]
    rw [if_neg (by omega), if_neg (by omega), u16_of_lt (by omega), if_neg (by omega),
      if_neg (by omega), if_neg (by omega), if_neg (by omega), h₂.drop, length_take,
      min_eq_left hlen]
    simp only [if_neg (show ¬data.length < o₂ + u16 len by omega)]
    rw [show optLen + 1 + (o₁ - (o + 1)) + (o₂ - o₁) + u16 len = optLen + (o₂ + u16 len - o) by omega]

theorem At.parseOption_error (h : At data o bytes) (hx : option u16 prev bytes = none)
    (hb : bytes.head? ≠ some 0xFF) (hdata : data.length < 2 ^ 16) (hopt : optLen ≤ o) :
    Coap.parseOption data data.length room o prev optLen = .error .inval := by
  have hlen := h.length
  cases bytes with
  | nil =>
    rw [Coap.parseOption, Coap.readU8, if_pos (by simp at hlen; omega)]
    rfl
  | cons b l =>
    have hb' : b.toNat ≠ 255 := fun h => hb (congrArg some (UInt8.toNat_inj.1 h))
    simp only [Coap.parseOption, h.readU8, bind, Except.bind, pure, Except.pure, throw, throwThe,
      MonadExceptOf.throw, if_neg hb']
    cases hf : field (b.toNat / 16) l with
    | none =>
      rw [h.next.2.decodeDelta_error hf (by have := b.toNat_lt; omega)]
      split <;> rfl
    | some r =>
      obtain ⟨delta, l₁⟩ := r
      obtain ⟨o₁, hd₁, h₁, hle₁, hlt₁⟩ := h.next.2.decodeDelta hf
      have hlen₁ := h₁.length
      rw [hd₁, if_neg (by omega)]
      simp only
      split
      · rfl
      rw [u16_of_lt (by omega), if_neg (by omega)]
      cases hf' : field (b.toNat % 16) l₁ with
      | none => rw [h₁.decodeDelta_error hf' (by omega)]
      | some r =>
        obtain ⟨len, l₂⟩ := r
        obtain ⟨o₂, hd₂, h₂, hle₂, -⟩ := h₁.decodeDelta hf'
        have hlen₂ := h₂.length
        have hnot : ¬(prev + u16 delta < 2 ^ 16 ∧ u16 len ≤ l₂.length) := by
          simpa [option, header, hf, hf'] using hx
        rw [hd₂]
        simp only
        repeat' first | rfl | omega | split

theorem At.parseOption_marker (h : At data o (0xFF :: p)) :
    Coap.parseOption data data.length room o prev optLen =
      if p = [] then .error .inval else .ok none := by
  have hlen := h.length
  have hp : o + 1 < data.length ↔ p ≠ [] := by
    rw [length_cons] at hlen
    rw [← length_pos_iff]
    omega
  simp [Coap.parseOption, h.readU8, bind, Except.bind, pure, Except.pure, throw, throwThe,
    MonadExceptOf.throw, hp]

def trailer (p : List UInt8) : ℕ := if p = [] then 0 else p.length + 1

def stored (room num prev n : ℕ) (os : List CoapOption) (p : List UInt8) :
    Except Error (ℕ × ℕ × List CoapOption) :=
  if ∀ x ∈ os.take num, x.value.length ≤ room then
    .ok (os.foldl (fun _ x => x.delta) prev, n - trailer p, os.take num)
  else .error .inval

theorem stored_cons (room num prev n : ℕ) (x : CoapOption) (os : List CoapOption) (p : List UInt8) :
    stored room num prev n (x :: os) p =
      if (if 0 < num then some room else none).any (· < x.value.length) then .error .inval
      else (stored room (num - 1) x.delta n os p).map fun r =>
        (r.1, r.2.1, if 0 < num then x :: r.2.2 else r.2.2) := by
  cases num with
  | zero => simp [stored, Except.map]
  | succ num =>
    simp only [stored]
    split_ifs <;> simp_all [Except.map]
    omega

theorem parseLoop_options (hos : Options u16 prev bytes os p) (h : At data o bytes)
    (hne : bytes ≠ []) (hdata : data.length < 2 ^ 16) (hopt : optLen ≤ o)
    (hfuel : bytes.length < fuel) : parseLoop data data.length room fuel num o prev optLen =
      stored room num prev (optLen + bytes.length) os p := by
  induction hos generalizing fuel num o optLen with
  | nil => exact absurd rfl hne
  | payload hp =>
    obtain ⟨-, rfl⟩ : ∃ n, fuel = n + 1 := Nat.exists_eq_succ_of_ne_zero (by omega)
    simp [parseLoop, h.parseOption_marker, hp, trailer, stored, bind, Except.bind, pure, Except.pure]
  | @cons prev bytes x l os p hx hos ih =>
    obtain ⟨o', h', hlt, hp⟩ := h.parseOption (if 0 < num then some room else none) hx hdata hopt
    have hlen := h.length
    have hlen' := h'.length
    have hsum : optLen + (o' - o) + l.length = optLen + bytes.length := by omega
    obtain ⟨fuel, rfl⟩ : ∃ n, fuel = n + 1 := Nat.exists_eq_succ_of_ne_zero (by omega)
    have hrest : (if o' = data.length then .ok (x.delta, optLen + (o' - o), [])
        else parseLoop data data.length room fuel (num - 1) o' x.delta (optLen + (o' - o))) =
        stored room (num - 1) x.delta (optLen + bytes.length) os p := by
      split
      · obtain rfl : l = [] := length_eq_zero_iff.1 (by omega)
        cases hos with
        | nil => simpa [trailer, stored] using hsum
        | cons hx => cases hx
      · rw [ih h' (by rintro rfl; simp at hlen'; omega) (by omega) (by omega), hsum]
    rw [parseLoop, hp, stored_cons, ← hrest]
    generalize (if 0 < num then some room else none) = value
    split <;> rfl

theorem parseLoop_error (hos : ∀ os p, ¬Options u16 prev bytes os p) (h : At data o bytes)
    (hdata : data.length < 2 ^ 16) (hopt : optLen ≤ o) (hfuel : bytes.length < fuel) :
    parseLoop data data.length room fuel num o prev optLen = .error .inval := by
  induction fuel generalizing prev bytes o optLen num with
  | zero => omega
  | succ fuel ih =>
    cases hx : option u16 prev bytes with
    | none =>
      by_cases hb : bytes.head? = some 0xFF
      · obtain ⟨p, rfl⟩ := head?_eq_some_iff.1 hb
        obtain rfl : p = [] := by
          by_contra hp
          exact hos _ _ (.payload hp)
        rw [parseLoop, h.parseOption_marker]
        rfl
      · rw [parseLoop, h.parseOption_error hx hb hdata hopt]
        rfl
    | some r =>
      obtain ⟨x, l⟩ := r
      obtain ⟨o', h', hlt, hp⟩ := h.parseOption (if 0 < num then some room else none) hx hdata hopt
      have hlen := h.length
      have hlen' := h'.length
      have hne : o' ≠ data.length := by
        intro heq
        obtain rfl : l = [] := length_eq_zero_iff.1 (by omega)
        exact hos _ _ (.cons hx .nil)
      rw [parseLoop, hp]
      generalize (if 0 < num then some room else none) = value
      split
      · rfl
      · simp only [bind, Except.bind, if_neg hne]
        rw [ih (fun os p hos' => hos _ _ (.cons hx hos')) h' (by omega) (by omega)]
        rfl

theorem option_u16 (h : ¬Wraps prev bytes) : option u16 prev bytes = option id prev bytes := by
  cases hh : header bytes with
  | none => simp [option, hh]
  | some r =>
    obtain ⟨delta, len, l⟩ := r
    have hlt : delta < 2 ^ 16 ∧ len < 2 ^ 16 := by
      by_contra hc
      exact h (.here hh (by omega))
    simp [option, hh, u16_of_lt hlt.1, u16_of_lt hlt.2]

theorem options_u16 (h : ¬Wraps prev bytes) :
    Options u16 prev bytes os p ↔ Options id prev bytes os p := by
  constructor <;> intro hos
  · induction hos with
    | nil => exact .nil
    | payload hp => exact .payload hp
    | cons hx _ ih =>
      rw [option_u16 h] at hx
      exact .cons hx (ih fun hl => h (.later hx hl))
  · induction hos with
    | nil => exact .nil
    | payload hp => exact .payload hp
    | cons hx _ ih => exact .cons (option_u16 h ▸ hx) (ih fun hl => h (.later hx hl))

/-- The packet that a message with a header of `n` bytes is, with the options that are stored. -/
def parsed (data : List UInt8) (num n : ℕ) (os : List CoapOption) (p : List UInt8) :
    Packet × List CoapOption :=
  (⟨data, data.length, data.length, n, data.length - n - trailer p,
    os.foldl (fun _ o => o.delta) 0⟩, os.take num)

theorem parseOptions_eq (hos : Options u16 0 (data.drop n) os p) (hdata : data.length < 2 ^ 16)
    (h0 : 0 < n) (hn : n ≤ data.length) : parseOptions data num room n =
      if ∀ o ∈ os.take num, o.value.length ≤ room then .ok (parsed data num n os p)
      else .error .ilseq := by
  rw [parseOptions, if_neg hn.not_gt]
  by_cases heq : n = data.length
  · rw [drop_of_length_le heq.symm.le] at hos
    cases hos with
    | nil => simp [parsed, heq]
    | cons hx => cases hx
  · rw [if_neg heq, parseLoop_options hos ⟨by simp; omega, rfl⟩ (by simp; omega) hdata (by omega)
      (by simp; omega), stored]
    by_cases hroom : ∀ o ∈ os.take num, o.value.length ≤ room
    · simp [if_pos hroom, parsed]
    · simp only [if_neg hroom]
      rfl

theorem parseOptions_error (hos : ∀ os p, ¬Options u16 0 (data.drop n) os p)
    (hdata : data.length < 2 ^ 16) (h0 : 0 < n) (hn : n ≤ data.length) :
    parseOptions data num room n = .error .ilseq := by
  have hne : n ≠ data.length := by
    intro heq
    rw [drop_of_length_le heq.symm.le] at hos
    exact hos _ _ .nil
  rw [parseOptions, if_neg hn.not_gt, if_neg hne, parseLoop_error hos ⟨by simp; omega, rfl⟩
    hdata (by omega) (by simp; omega)]
  rfl

def tkl (data : List UInt8) : ℕ := (data.headD 0).toNat % 16

theorem coapPacketParse_eq (h : 4 ≤ data.length) : coapPacketParse data num room =
    if 8 < tkl data then .error .badmsg else parseOptions data num room (4 + tkl data) := by
  rw [coapPacketParse, if_neg (by omega)]
  cases data with
  | nil => simp at h
  | cons b l => rfl

end ZephyrRtos.Coap
