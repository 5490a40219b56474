import ZephyrRtos.Coap.Parse

/-! Adding an option to a message, and what is left of the message when that fails. -/

namespace ZephyrRtos.Coap

open List

/-- `insert_u8`, `insert_be16` and `insert`, if there is enough space. -/
def Packet.insert (p : Packet) (bytes : List UInt8) (offset : ℕ) : Packet :=
  { p with
    data := p.data.take offset ++ bytes ++ (p.data.drop offset).take (p.offset - offset) ++
      p.data.drop (p.offset + bytes.length)
    offset := p.offset + bytes.length }

def encodeExtendedOption (num : ℕ) : ℕ × List UInt8 :=
  if num < 13 then (num, [])
  else if num < 269 then (13, [UInt8.ofNat (num - 13)])
  else (14, [UInt8.ofNat ((num - 269) / 256), UInt8.ofNat (num - 269)])

/-- What `encode_option` writes, one after the other. -/
def pieces (code : ℕ) (value : List UInt8) : List (List UInt8) :=
  [UInt8.ofNat ((encodeExtendedOption code).1 * 16 + (encodeExtendedOption value.length).1)] ::
    [(encodeExtendedOption code).2, (encodeExtendedOption value.length).2, value].filter (· ≠ [])

def insertAll : List (List UInt8) → Packet → ℕ → Packet × Bool
  | [], p, _ => (p, true)
  | bytes :: l, p, offset =>
    if p.maxLen < p.offset + bytes.length then (p, false)
    else insertAll l (p.insert bytes offset) (offset + bytes.length)

def optionSize (code : ℕ) (value : List UInt8) : ℕ := (pieces code value).flatten.length

/-- The packet as it is left behind, and the size of the option if it was written. -/
def encodeOption (p : Packet) (code : ℕ) (value : List UInt8) (offset : ℕ) : Packet × Option ℕ :=
  let r := insertAll (pieces code value) p offset
  (r.1, if r.2 then some (optionSize code value) else none)

/-- The option that comes after the new one is from `lastOffset` to `offset`. -/
structure Place where
  offset : ℕ
  lastOffset : ℕ
  lastOpt : ℕ
  option : CoapOption

/-- The loop of `insert_option`. -/
def findPlace (p : Packet) (room code : ℕ) : ℕ → Place → ℕ → ℕ → Except Error Place
  | 0, _, _, _ => .error .fault
  | fuel + 1, s, delta, len =>
    if s.offset < p.hdrLen + p.optLen then do
      match ← parseOption p.data (p.hdrLen + p.optLen) (some room) s.offset delta len with
      | none => findPlace p room code fuel ⟨s.offset + 1, s.offset + 1, delta, s.option⟩ delta len
      | some (o, pos, len) =>
        if code < o.delta then return { s with offset := pos, option := o }
        else findPlace p room code fuel ⟨pos, pos, o.delta, o⟩ o.delta len
    else return s

def place (p : Packet) (room code : ℕ) : Except Error Place :=
  findPlace p room code (p.hdrLen + p.optLen + 1) ⟨p.hdrLen, p.hdrLen, 0, 0, []⟩ 0 0

/-- Without what is from `lo` to `hi`. -/
def Packet.cut (p : Packet) (lo hi : ℕ) : Packet :=
  { p with
    data := p.data.take lo ++ (p.data.drop hi).take (p.offset - hi) ++ p.data.drop (p.offset - (hi - lo))
    optLen := p.optLen - (hi - lo)
    offset := p.offset - (hi - lo) }

def insertOption (room : ℕ) (p : Packet) (code : ℕ) (value : List UInt8) : Packet × Option Error :=
  match place p room code with
  | .error e => (p, some (if e = .fault then .fault else .ilseq))
  | .ok s =>
    match encodeOption (p.cut s.lastOffset s.offset) (code - s.lastOpt) value s.lastOffset with
    | (p, none) => (p, some .inval)
    | (p, some r) =>
      match encodeOption { p with optLen := u16 (p.optLen + r) } (u16 (s.option.delta + 2 ^ 16 - code))
        s.option.value (s.lastOffset + r) with
      | (p, none) => (p, some .inval)
      | (p, some r) => ({ p with optLen := u16 (p.optLen + r) }, none)

def Packet.diff (p : Packet) (code : ℕ) : ℕ := if p.optLen = 0 then code else code - p.delta

/-- `none` is the null pointer, and otherwise `value` has `len` bytes. -/
def coapPacketAppendOption (room : ℕ) (p : Packet) (code : ℕ) (value : Option (List UInt8)) (len : ℕ) :
    Packet × Option Error :=
  if len ≠ 0 ∧ value = none then (p, some .inval)
  else if code < p.delta then insertOption room p code ((value.getD []).take len)
  else
    match encodeOption p (p.diff code) ((value.getD []).take len) (p.hdrLen + p.optLen) with
    | (p', none) => (p', some .inval)
    | (p', some r) =>
      ({ p' with optLen := u16 (p.optLen + r), delta := u16 (p.delta + p.diff code) }, none)

variable {p : Packet} (offset : ℕ)

theorem insertAll_fits (l : List (List UInt8)) (h : p.offset + l.flatten.length ≤ p.maxLen) :
    ∃ p', insertAll l p offset = (p', true) ∧ p'.offset = p.offset + l.flatten.length ∧
      p'.maxLen = p.maxLen := by
  induction l generalizing p offset with
  | nil => exact ⟨p, rfl, rfl, rfl⟩
  | cons bytes l ih =>
    rw [flatten_cons, length_append] at h ⊢
    rw [insertAll, if_neg (by omega), ← add_assoc]
    exact ih _ (by simp only [Packet.insert]; omega)

theorem insertAll_fails (bytes : List UInt8) (l : List (List UInt8))
    (h : p.maxLen < p.offset + (bytes :: l).flatten.length) :
    ∃ p', insertAll (bytes :: l) p offset = (p', false) ∧
      if p.maxLen < p.offset + bytes.length then p' = p else p.offset + bytes.length ≤ p'.offset := by
  rw [insertAll]
  split
  · exact ⟨p, rfl, rfl⟩
  · induction l generalizing bytes p offset with
    | nil => simp at h; omega
    | cons bytes' l ih =>
      rw [flatten_cons, length_append] at h
      rw [insertAll]
      split
      · exact ⟨_, rfl, le_rfl⟩
      · obtain ⟨p', heq, hgrow⟩ := ih (p := p.insert bytes offset) (offset + bytes.length)
          bytes' (by simp only [Packet.insert]; omega) ‹_›
        exact ⟨p', heq, (Nat.le_add_right ..).trans hgrow⟩

theorem encodeOption_fits (code : ℕ) (value : List UInt8)
    (h : p.offset + optionSize code value ≤ p.maxLen) : ∃ p',
    encodeOption p code value offset = (p', some (optionSize code value)) ∧
      p'.offset = p.offset + optionSize code value ∧ p'.maxLen = p.maxLen := by
  obtain ⟨p', heq, hp'⟩ := insertAll_fits offset _ h
  exact ⟨p', by simp [encodeOption, heq], hp'⟩

theorem encodeOption_fails (code : ℕ) (value : List UInt8)
    (h : p.maxLen < p.offset + optionSize code value) : ∃ p',
    encodeOption p code value offset = (p', none) ∧ (p' = p ↔ p.maxLen ≤ p.offset) := by
  obtain ⟨p', heq, hp'⟩ := insertAll_fails offset _ _ h
  refine ⟨p', by simp only [encodeOption, pieces, heq]; rfl, ?_⟩
  split at hp'
  · next hlt =>
    rw [length_singleton] at hlt
    exact ⟨fun _ => by omega, fun _ => hp'⟩
  · next hlt =>
    rw [length_singleton] at hlt hp'
    exact ⟨fun heq => by rw [heq] at hp'; omega, fun heq => by omega⟩

/-- If the option is not added, the packet is as before. -/
def Keeps (room : ℕ) (p : Packet) (code : ℕ) (value : Option (List UInt8)) (len : ℕ) : Prop :=
  ∀ e p', coapPacketAppendOption room p code value len = (p', some e) → p' = p

def Place.Fits (s : Place) (p : Packet) (code : ℕ) (value : List UInt8) : Prop :=
  (p.cut s.lastOffset s.offset).offset + optionSize (code - s.lastOpt) value +
    optionSize (u16 (s.option.delta + 2 ^ 16 - code)) s.option.value ≤ p.maxLen

def oneOption : Packet := ⟨[0x40, 1, 0, 0, 0x31, 7], 6, 6, 4, 2, 3⟩

end ZephyrRtos.Coap
