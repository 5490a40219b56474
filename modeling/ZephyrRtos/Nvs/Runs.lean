import ZephyrRtos.Lib.Run
import ZephyrRtos.Nvs.Startup
import ZephyrRtos.Nvs.WriteLaws

namespace ZephyrRtos.Nvs

open List hiding lookup lookup_cons

open Function (update)

open Lib Sys LogStore

/-- What the user can do, and the power supply: of a call that is cut off only the first `n`
operations on the flash are done. -/
inductive Action
  | write (id : ℕ) (data : List UInt8)
  | delete (id : ℕ)
  | read (id len : ℕ)
  | mount
  | cutWrite (id : ℕ) (data : List UInt8) (n : ℕ)
  | cutDelete (id n : ℕ)
  | cutMount (n : ℕ)

inductive Event
  | write (id : ℕ) (data : List UInt8) (result : Except Errno ℕ)
  | read (id len : ℕ) (result : Except Errno (ℕ × List UInt8))
  | mount (result : Except Errno Unit)
  | cutWrite (id : ℕ) (data : List UInt8)
  | cutMount
  deriving DecidableEq

def flashAfter (f : Flash) (ops : List FlashOp) (n : ℕ) : Flash :=
  ((ops.take n).getLast?.map FlashOp.after).getD f

def booted (f : Flash) : Fs := ⟨f, 0, 0, false⟩

variable (c : Config)

def step (s : Fs) : Action → Option (Fs × List Event)
  | .write id data =>
    some ((write c id data s).state, [.write id data (write c id data s).result])
  | .delete id => some ((delete c id s).state, [.write id [] (delete c id s).result])
  | .read id len => some (s, [.read id len (read c s id len)])
  | .mount => some ((mount c s).state, [.mount (mount c s).result])
  | .cutWrite id data n =>
    some (booted (flashAfter s.flash (write c id data s).log n), [.cutWrite id data])
  | .cutDelete id n => some (booted (flashAfter s.flash (delete c id s).log n), [.cutWrite id []])
  | .cutMount n => some (booted (flashAfter s.flash (mount c s).log n), [.cutMount])

def device (f : Flash) : System Fs Action Event where
  init := booted f
  step := step c

def Blank (f : Flash) : Prop := ∀ w < c.sectorCount, Erased c f w 0 c.sectorSize

/-- The id is not that of the entries of the garbage collection, the length fits its field, and what
is where the next entry goes is not taken for one. -/
structure Writable (s : Fs) (id : ℕ) (data : List UInt8) : Prop where
  id_lt : id < 0xFFFF
  length_lt : data.length + dataCrcSize c < 2 ^ 16
  stray : stray c s = false

instance (s : Fs) (id : ℕ) (data : List UInt8) : Decidable (Writable c s id data) :=
  decidable_of_iff (id < 0xFFFF ∧ data.length + dataCrcSize c < 2 ^ 16 ∧ Nvs.stray c s = false)
    ⟨fun h => ⟨h.1, h.2.1, h.2.2⟩, fun h => ⟨h.1, h.2, h.3⟩⟩

def Uncut (s : Fs) : Action → Prop
  | .write id data => Writable c s id data
  | .delete id => Writable c s id []
  | .read _ _ | .mount => True
  | .cutWrite _ _ _ | .cutDelete _ _ | .cutMount _ => False

instance (s : Fs) (a : Action) : Decidable (Uncut c s a) :=
  match a with
  | .write id data => inferInstanceAs (Decidable (Writable c s id data))
  | .delete id => inferInstanceAs (Decidable (Writable c s id []))
  | .read _ _ | .mount => isTrue trivial
  | .cutWrite _ _ _ | .cutDelete _ _ | .cutMount _ => isFalse id

/-- No mount finds what looks like an entry in the data that a power cut has left. -/
def Safe (s : Fs) : Action → Prop
  | .write id data | .cutWrite id data _ => Writable c s id data
  | .delete id | .cutDelete id _ => Writable c s id []
  | .read _ _ => stray c s = false
  | .mount | .cutMount _ => NoPhantom c s.flash

instance (f : Flash) (w : ℕ) : Decidable (NotClosed c f w) := by
  unfold NotClosed
  infer_instance

instance (f : Flash) : Decidable (NoPhantom c f) := by
  unfold NoPhantom
  infer_instance

instance (s : Fs) (a : Action) : Decidable (Safe c s a) :=
  match a with
  | .write id data | .cutWrite id data _ => inferInstanceAs (Decidable (Writable c s id data))
  | .delete id | .cutDelete id _ => inferInstanceAs (Decidable (Writable c s id []))
  | .read _ _ => inferInstanceAs (Decidable (Nvs.stray c s = false))
  | .mount | .cutMount _ => inferInstanceAs (Decidable (NoPhantom c s.flash))

/-- When a new entry is written with the copies of a sector, it leaves space to mark the end. -/
def Spares (s : Fs) (id : ℕ) (data : List UInt8) : Prop :=
  ∀ w es hist p d o, Mounted c s w es hist p d o → Calm c ⟨id, data⟩ (es :: hist) False

/-- No new entry takes the space for the mark of a garbage collection. -/
def Roomy (s : Fs) : Action → Prop
  | .write id data | .cutWrite id data _ => Writable c s id data ∧ Spares c s id data
  | .delete id | .cutDelete id _ => Writable c s id [] ∧ Spares c s id []
  | .read _ _ => stray c s = false
  | .mount | .cutMount _ => NoPhantom c s.flash

/-- What a read with a buffer of `len` bytes returns for an id with these data. -/
def shown (len : ℕ) (data : List UInt8) : Except Errno (ℕ × List UInt8) :=
  if len > c.sectorSize - 2 * ateSize c then .error .inval
  else if data = [] then .error .noent
  else .ok (data.length, data.take len)

variable {c} {f : Flash} {s t : Fs} {w p o d id len n : ℕ} {data : List UInt8} {es : List Entry}
  {hist : List (List Entry)} {V : (ℕ → List UInt8) → Prop} {Q K : Prop} {val : ℕ → List UInt8}
  {evs : List Event}

theorem histResult_zero (L : List Entry) : histResult id len 0 L =
    if value id L = [] then .error .noent else .ok ((value id L).length, (value id L).take len) := by
  have hvalue : value id L = (((ofId id L)[0]?).map Entry.data).getD [] := by
    rw [value, lookup, ofId, ← head?_eq_getElem?, head?_filter]
  rw [histResult, hvalue]
  cases hL : ofId id L with
  | cons e es => rfl
  | nil =>
    cases hlast : L.getLast? with
    | none => rfl
    | some e =>
      have hne : e.id ≠ id := fun hid => by
        have hmem : e ∈ ofId id L := mem_filter.2 ⟨mem_of_getLast? hlast, decide_eq_true hid⟩
        rw [hL] at hmem
        exact not_mem_nil hmem
      dsimp only [getElem?_nil]
      rw [if_neg fun h => hne h.1]
      rfl

theorem Stable.read (hc : c.Good) (h : Stable c s w es hist p d o val Q K) (hready : s.ready = true)
    (hstray : stray c s = false) (id len : ℕ) : read c s id len = shown c len (val id) := by
  have hfour := hc.four
  have hsize := hc.size_le
  rw [shown]
  split
  next hlen =>
    have hsub : sub32 c.sectorSize (2 * ateSize c) = c.sectorSize - 2 * ateSize c := by
      unfold sub32
      omega
    rw [Nvs.read, Nvs.readHist, hready, if_neg (by decide), hsub, if_pos hlen]
  next hlen =>
    rw [Nvs.read, h.readHist hc hstray hready (by omega), histResult_zero, ← flatten_cons,
      h.content.value]

theorem Writable.ok (h : Writable c s id data) : GcWriteEntry.Ok c ⟨id, data⟩ := by
  refine ⟨h.id_lt, ?_⟩
  obtain rfl | hne := eq_or_ne data []
  · rw [payload_nil]
    exact Nat.two_pow_pos 16
  · rw [length_payload hne]
    exact h.length_lt

theorem Spares.calm (h : Spares c s id data ∨ Q) (hm : Mounted c s w es hist p d o) :
    Calm c ⟨id, data⟩ (es :: hist) Q := by
  intro A x B hR htight
  obtain h | hQ := h
  · exact absurd htight fun htight => h w es hist p d o hm A x B hR htight
  · exact hQ

def OldOrNew (val : ℕ → List UInt8) (id : ℕ) (data : List UInt8) (v : ℕ → List UInt8) : Prop :=
  v = val ∨ v = update val id data

theorem Stable.write_outcome (hc : c.Good) (h : Stable c s w es hist p d o val Q K)
    (hready : s.ready = true) (hw : Writable c s id data) (hroom : Spares c s id data ∨ Q) :
    ∃ r t l w' es' hist' p' d' o', Nvs.write c id data s = ⟨r, t, l⟩ ∧ t.ready = true ∧
      (∀ op ∈ l, OpOk c (OldOrNew val id data) Q op) ∧
      ((∃ n, r = .ok n) ∧ Stable c t w' es' hist' p' d' o' (update val id data) Q K ∨
        (∃ e, (e = .nospc ∨ e = .inval) ∧ r = .error e) ∧ Stable c t w' es' hist' p' d' o' val Q K ∧
          stray c t = false) := by
  obtain ⟨t, w', es', hist', p', d', o', hready', hout⟩ := h.write (V := OldOrNew val id data) hc
    hready hw.stray hw.ok (.inl rfl) (.inr rfl) (Spares.calm hroom h.mounted)
  obtain ⟨⟨n, l, heq, hl⟩, hstable⟩ | ⟨⟨e, he, l, heq, hl⟩, hstable, hstray⟩ := hout
  · exact ⟨_, t, l, w', es', hist', p', d', o', heq, hready'.trans hready, hl, .inl ⟨⟨n, rfl⟩, hstable⟩⟩
  · exact ⟨_, t, l, w', es', hist', p', d', o', heq, hready'.trans hready, hl,
      .inr ⟨⟨e, he, rfl⟩, hstable, hstray⟩⟩

theorem write_of_not_ready (h : s.ready = false) (id : ℕ) (data : List UInt8) :
    write c id data s = ⟨.error .acces, s, []⟩ := by
  unfold Nvs.write
  show Logged.bind .get _ s = _
  simp only [Logged.bind, Logged.get, h]
  rfl

theorem Blank.idle (hc : c.Good) (h : Blank c f) : Idle c f 0 [] [] 0 0 (top c) where
  lt := Nat.zero_lt_two.trans_le hc.two
  opened := .nil hc (h 0 (Nat.zero_lt_two.trans_le hc.two))
  ring := ⟨fun _ hi => absurd hi (Nat.not_lt_zero _), fun _ _ _ => h _ (back_lt
    (Nat.zero_lt_two.trans_le hc.two))⟩
  space := hc.two
  first _ := .inl rfl

theorem Content.empty : Content Q [[]] fun _ => [] where
  marks _ he := absurd he not_mem_nil
  value _ := rfl
  tidy _ hx hne := absurd (mem_singleton.1 hx) hne

theorem flashAfter_of {P : Flash → Prop} {ops : List FlashOp} (hf : P f)
    (hops : ∀ op ∈ ops, P op.after) : P (flashAfter f ops n) := by
  rw [flashAfter]
  cases hlast : (ops.take n).getLast? with
  | none => exact hf
  | some op => exact hops op (mem_of_mem_take (mem_of_getLast? hlast))

/-- The data are served, or a mount would find them. -/
inductive Serves (c : Config) (Q : Prop) (s : Fs) (val : ℕ → List UInt8) : Bool → Prop
  | off : s.ready = false → Shows c Q s.flash val → Serves c Q s val false
  | on {w : ℕ} {es : List Entry} {hist : List (List Entry)} {p d o : ℕ} : s.ready = true →
      Stable c s w es hist p d o val Q True → Serves c Q s val true

theorem Serves.shows (h : Serves c Q s val b) : Shows c Q s.flash val := by
  cases h with
  | off _ h => exact h
  | on _ h => exact h.mounted.idle.shows h.content

theorem Serves.mount (hc : c.Good) (h : Serves c Q s val b) (hnone : NoPhantom c s.flash) :
    ∃ t l, mount c s = ⟨.ok (), t, l⟩ ∧ Serves c Q t val true ∧ ∀ op ∈ l, OpOk c (· = val) Q op := by
  obtain ⟨t, w, es, hist, p, d, o, ⟨l, heq, hl⟩, hready, hstable⟩ := h.shows.mount (V := (· = val)) hc rfl hnone
  exact ⟨t, l, heq, .on hready hstable, hl⟩

def written (val : ℕ → List UInt8) (id : ℕ) (data : List UInt8) : Except Errno ℕ → ℕ → List UInt8
  | .ok _ => update val id data
  | .error _ => val

def WriteErr (b : Bool) (e : Errno) : Prop := if b then e = .nospc ∨ e = .inval else e = .acces

theorem Serves.write (hc : c.Good) (h : Serves c Q s val b) (hw : Writable c s id data)
    (hroom : Spares c s id data ∨ Q) : ∃ r t l, write c id data s = ⟨r, t, l⟩ ∧
      Serves c Q t (written val id data r) b ∧ (∀ op ∈ l, OpOk c (OldOrNew val id data) Q op) ∧
      (∀ e, r = .error e → WriteErr b e ∧ stray c t = false) ∧ (∀ n, r = .ok n → b = true) := by
  cases h with
  | off hready h =>
    refine ⟨_, s, [], write_of_not_ready hready id data, .off hready h,
      nofun, ?_, fun _ h => nomatch h⟩
    rintro - ⟨⟩
    exact ⟨rfl, hw.stray⟩
  | on hready h =>
    obtain ⟨r, t, l, w', es', hist', p', d', o', heq, hready', hl, hout⟩ :=
      h.write_outcome hc hready hw hroom
    refine ⟨r, t, l, heq, ?_⟩
    obtain ⟨⟨-, rfl⟩, hstable⟩ | ⟨⟨e, he, rfl⟩, hstable, hstray⟩ := hout
    · exact ⟨.on hready' hstable, hl, (fun _ h => nomatch h), fun _ _ => rfl⟩
    · refine ⟨.on hready' hstable, hl, ?_, fun _ h => nomatch h⟩
      rintro _ ⟨⟩
      exact ⟨he, hstray⟩

theorem Serves.read (hc : c.Good) (h : Serves c Q s val b) (hstray : stray c s = false) (id len : ℕ)
    : read c s id len = if b then shown c len (val id) else .error .acces := by
  cases h with
  | off hready _ => rw [Nvs.read, readHist, hready, if_pos (by decide), if_neg (by decide)]
  | on hready h => rw [h.read hc hready hstray, if_pos rfl]

theorem Serves.cut {ops : List FlashOp} (h : Serves c Q s val b) (hval : V val)
    (hops : ∀ op ∈ ops, OpOk c V Q op) (n : ℕ) :
    ∃ val', V val' ∧ Serves c Q (booted (flashAfter s.flash ops n)) val' false := by
  obtain ⟨val', hV, hshow⟩ := flashAfter_of (P := fun f => ∃ val', V val' ∧ Shows c Q f val')
    ⟨val, hval, h.shows⟩ fun op hop => (hops op hop).after
  exact ⟨val', hV, .off rfl hshow⟩

/-- The data that are stored according to what was called and what was returned, and whether they are
served. Of a write that was cut off, all is done or nothing. -/
inductive Explains (c : Config) : List Event → Bool → (ℕ → List UInt8) → Prop
  | nil : Explains c [] false fun _ => []
  | wrote {evs : List Event} {val : ℕ → List UInt8} (id : ℕ) (data : List UInt8) (n : ℕ) :
      Explains c evs true val →
      Explains c (evs ++ [.write id data (.ok n)]) true (update val id data)
  | refused {evs : List Event} {b : Bool} {val : ℕ → List UInt8} (id : ℕ) (data : List UInt8)
      (e : Errno) : Explains c evs b val → WriteErr b e →
      Explains c (evs ++ [.write id data (.error e)]) b val
  | read {evs : List Event} {b : Bool} {val : ℕ → List UInt8} (id len : ℕ) : Explains c evs b val →
      Explains c (evs ++ [.read id len (if b then shown c len (val id) else .error .acces)]) b val
  | mount {evs : List Event} {b : Bool} {val : ℕ → List UInt8} : Explains c evs b val →
      Explains c (evs ++ [.mount (.ok ())]) true val
  | cutWrite {evs : List Event} {b : Bool} {val val' : ℕ → List UInt8} (id : ℕ) (data : List UInt8) :
      Explains c evs b val → OldOrNew val id data val' →
      Explains c (evs ++ [.cutWrite id data]) false val'
  | cutMount {evs : List Event} {b : Bool} {val : ℕ → List UInt8} : Explains c evs b val →
      Explains c (evs ++ [.cutMount]) false val

/-- The events are those of a store of data, and the store is the one that is served. -/
def Inv (c : Config) (Q : Prop) (evs : List Event) (s : Fs) : Prop :=
  ∃ b val, Explains c evs b val ∧ Serves c Q s val b

theorem Blank.inv (hc : c.Good) (h : Blank c f) : Inv c Q [] (booted f) :=
  ⟨false, _, .nil, .off rfl ((h.idle hc).shows .empty)⟩

def Allowed (c : Config) (Q : Prop) (s : Fs) (a : Action) : Prop :=
  Safe c s a ∧ (Roomy c s a ∨ Q)

section

variable (hc : c.Good) (h : Inv c Q evs s) (hw : Writable c s id data)
  (hroom : Spares c s id data ∨ Q)
include hc h hw hroom

theorem Inv.write :
    Inv c Q (evs ++ [.write id data (Nvs.write c id data s).result])
      (Nvs.write c id data s).state := by
  obtain ⟨b, val, hex, hserves⟩ := h
  obtain ⟨r, t, l, heq, hserves', -, herr, hok⟩ := hserves.write hc hw hroom
  rw [heq]
  cases r with
  | ok n =>
    obtain rfl := hok n rfl
    exact ⟨true, _, .wrote id data n hex, hserves'⟩
  | error e => exact ⟨b, val, .refused id data e hex (herr e rfl).1, hserves'⟩

theorem Inv.cutWrite (n : ℕ) :
    Inv c Q (evs ++ [.cutWrite id data])
      (booted (flashAfter s.flash (Nvs.write c id data s).log n)) := by
  obtain ⟨b, val, hex, hserves⟩ := h
  obtain ⟨r, t, l, heq, -, hl, -⟩ := hserves.write hc hw hroom
  rw [heq]
  obtain ⟨val', hval', hserves'⟩ := hserves.cut (.inl rfl) hl n
  exact ⟨false, val', .cutWrite id data hex hval', hserves'⟩

end

theorem Inv.step (hc : c.Good) (h : Inv c Q evs s) (hok : Allowed c Q s a)
    (hs : step c s a = some (t, evs')) : Inv c Q (evs ++ evs') t := by
  obtain ⟨hsafe, hroom⟩ := hok
  cases a <;> cases hs
  case write id data => exact h.write hc hsafe (hroom.imp_left And.right)
  case delete id => exact h.write hc hsafe (hroom.imp_left And.right)
  case read id len =>
    obtain ⟨b, val, hex, hserves⟩ := h
    rw [hserves.read hc hsafe]
    exact ⟨b, val, .read id len hex, hserves⟩
  case mount =>
    obtain ⟨b, val, hex, hserves⟩ := h
    obtain ⟨t, l, heq, hserves', -⟩ := hserves.mount hc hsafe
    rw [heq]
    exact ⟨true, val, .mount hex, hserves'⟩
  case cutWrite id data n => exact h.cutWrite hc hsafe (hroom.imp_left And.right) n
  case cutDelete id n => exact h.cutWrite hc hsafe (hroom.imp_left And.right) n
  case cutMount n =>
    obtain ⟨b, val, hex, hserves⟩ := h
    obtain ⟨t, l, heq, -, hl⟩ := hserves.mount hc hsafe
    rw [heq]
    obtain ⟨_, rfl, hserves'⟩ := hserves.cut (V := (· = val)) rfl hl n
    exact ⟨false, _, .cutMount hex, hserves'⟩

theorem Reaches.inv (hc : c.Good) (hblank : Blank c f) (hok : ∀ s a, ok s a → Allowed c Q s a)
    (h : Reaches (device c f) ok evs s) : Inv c Q evs s :=
  Run.invariant (I := Inv c Q) (hblank.inv hc)
    (fun _ _ _ _ _ hinv ha hs => hinv.step hc (hok _ _ ha) hs) h

/-- What the successful writes have stored. -/
def current (evs : List Event) : ℕ → List UInt8 :=
  evs.foldl (fun val ev => match ev with
    | .write id data r => written val id data r
    | .read _ _ _ | .mount _ | .cutWrite _ _ | .cutMount => val) fun _ => []

theorem current_snoc (ev : Event) : current (evs ++ [ev]) = match ev with
    | .write id data r => written (current evs) id data r
    | _ => current evs := by
  rw [current, foldl_append]
  cases ev <;> rfl

/-- Without power cuts: the flash is empty, or what was written is served. -/
inductive Kept (c : Config) (evs : List Event) (s : Fs) : Prop
  | off : s.ready = false → (∀ r, .mount r ∉ evs) → current evs = (fun _ => []) →
      Idle c s.flash 0 [] [] 0 0 (top c) → Kept c evs s
  | on {w : ℕ} {es : List Entry} {hist : List (List Entry)} {p d o : ℕ} : s.ready = true →
      (∀ r, .mount r ∈ evs → r = .ok ()) → Stable c s w es hist p d o (current evs) True False →
      Kept c evs s

theorem not_mem_snoc (h : .mount r ∉ evs) (hne : .mount r ≠ ev) : .mount r ∉ evs ++ [ev] := by
  rw [mem_append, mem_singleton]
  exact not_or.2 ⟨h, hne⟩

theorem mem_snoc (h : .mount r ∈ evs ++ [ev]) (hne : .mount r ≠ ev) : .mount r ∈ evs := by
  rw [mem_append, mem_singleton] at h
  exact h.resolve_right hne

section

variable (hc : c.Good) (h : Kept c evs s)
include hc h

theorem Kept.write (hw : Writable c s id data) :
    Kept c (evs ++ [.write id data (Nvs.write c id data s).result]) (Nvs.write c id data s).state := by
  cases h with
  | off hready hnone hcurrent hidle =>
    rw [write_of_not_ready hready]
    refine .off hready (fun r => not_mem_snoc (hnone r) fun h => nomatch h) ?_ hidle
    rwa [current_snoc]
  | on hready hmount h =>
    obtain ⟨r, t, l, w', es', hist', p', d', o', heq, hready', -, hout⟩ :=
      h.write_outcome hc hready hw (.inr trivial)
    rw [heq]
    have hmount' : ∀ r', .mount r' ∈ evs ++ [.write id data r] → r' = .ok () :=
      fun r' hr => hmount r' (mem_snoc hr fun h => nomatch h)
    obtain ⟨⟨n, rfl⟩, hstable⟩ | ⟨⟨e, -, rfl⟩, hstable, -⟩ := hout
    · exact .on hready' hmount' (by rw [current_snoc]; exact hstable)
    · exact .on hready' hmount' (by rw [current_snoc]; exact hstable)

theorem Kept.mount : Kept c (evs ++ [.mount (Nvs.mount c s).result]) (Nvs.mount c s).state := by
  cases h with
  | off hready hnone hcurrent hidle =>
    obtain ⟨t, es', p', d', o', ⟨l, heq, -⟩, hready', hstable⟩ := hidle.mount (V := fun _ => True)
      hc .empty trivial (.inl (alSize_zero hc).symm) False.elim
    rw [heq]
    refine .on hready' (fun r hr => ?_) (by rw [current_snoc, hcurrent]; exact hstable)
    obtain hr | hr := mem_append.1 hr
    · exact absurd hr (hnone r)
    · injection mem_singleton.1 hr
  | on hready hmount h =>
    obtain ⟨t, es', p', d', o', ⟨l, heq, -⟩, hready', hstable⟩ := h.mounted.idle.mount
      (V := fun _ => True) hc h.content trivial h.clean False.elim
    rw [heq]
    refine .on hready' (fun r hr => ?_) (by rw [current_snoc]; exact hstable)
    obtain hr | hr := mem_append.1 hr
    · exact hmount r hr
    · injection mem_singleton.1 hr

theorem Kept.step (hok : Uncut c s a) (hs : step c s a = some (t, evs')) :
    Kept c (evs ++ evs') t := by
  cases a <;> cases hs
  case write id data => exact h.write hc hok
  case delete id => exact h.write hc hok
  case read id len =>
    cases h with
    | off hready hnone hcurrent hidle =>
      exact .off hready (fun r => not_mem_snoc (hnone r) fun h => nomatch h)
        (by rw [current_snoc]; exact hcurrent) hidle
    | on hready hmount h =>
      exact .on hready (fun r hr => hmount r (mem_snoc hr fun h => nomatch h))
        (by rw [current_snoc]; exact h)
  case mount => exact h.mount hc
  all_goals exact hok.elim

end

/-- Without power cuts, when nothing looks like an entry where the next one goes, no mount fails,
and a read returns the data of the last successful write of the id. -/
theorem nvs_persistent_map (hc : c.Good) (hblank : Blank c f)
    (h : Reaches (device c f) (Uncut c) evs s) :
    (∀ r, .mount r ∈ evs → r = .ok ()) ∧
    (.mount (.ok ()) ∈ evs → stray c s = false →
      ∀ id len, read c s id len = shown c len (current evs id)) := by
  have hkept : Kept c evs s := by
    refine Run.invariant ?_ (fun _ _ _ _ _ hkept ha hs => hkept.step hc ha hs) h
    exact .off rfl (fun _ => not_mem_nil) rfl (hblank.idle hc)
  cases hkept with
  | off hready hnone _ _ =>
    exact ⟨fun r hr => absurd hr (hnone r), fun hr => absurd hr (hnone _)⟩
  | on hready hmount h => exact ⟨hmount, fun _ hstray => h.read hc hready hstray⟩

def twoSectors : Config where
  offset := 0
  sectorSize := 64
  sectorCount := 2
  writeBlockSize := 8
  eraseValue := 0xff
  pageSize := 64
  deviceSize := 128
  dataCrc := none

theorem twoSectors_good : twoSectors.Good :=
  ⟨⟨3, by decide, rfl⟩, by decide, by decide, by decide, by decide, by decide, by decide, by decide,
    by decide⟩

def erasedFlash (c : Config) : Flash := fun _ => erasedCell c

theorem erasedFlash_blank : Blank c (erasedFlash c) := fun _ _ _ _ _ => rfl

theorem nvs_persistent_map_collected : ∃ evs s,
    Reaches (device twoSectors (erasedFlash twoSectors)) (Uncut twoSectors) evs s ∧
    read twoSectors s 1 8 = .ok (1, [7]) ∧ read twoSectors s 2 8 = .error .noent ∧
    read twoSectors s 3 2 = .ok (3, [8, 9]) := by
  obtain ⟨evs, s, hrun, hmount, hstray, h1, h2, h3⟩ := Reaches.of_exec
    (device twoSectors (erasedFlash twoSectors)) (Uncut twoSectors)
    [.mount, .write 1 [1, 2, 3], .write 2 [4], .write 1 [5], .write 3 [8, 9, 10], .write 1 [6], .mount,
      .write 1 [7], .delete 2]
    (fun evs s => .mount (.ok ()) ∈ evs ∧ stray twoSectors s = false ∧
      current evs 1 = [7] ∧ current evs 2 = [] ∧ current evs 3 = [8, 9, 10]) (by decide +kernel)
  have hread := (nvs_persistent_map twoSectors_good erasedFlash_blank hrun).2 hmount hstray
  refine ⟨evs, s, hrun, ?_, ?_, ?_⟩
  · rw [hread, h1]
    rfl
  · rw [hread, h2]
    rfl
  · rw [hread, h3]
    rfl

def fakeEntry : List UInt8 := [3, 0, 0, 0, 1, 0, 255, 186]

/-- Data that look like an entry are found where the next entry goes, after a delete entry has taken
the last place. -/
theorem nvs_read_finds_stray : ∃ evs s,
    Reaches (device twoSectors (erasedFlash twoSectors)) (fun _ _ => True) evs s ∧
    evs = [.mount (.ok ()), .write 1 (List.replicate 16 7) (.ok 16), .write 2 fakeEntry (.ok 8),
      .write 1 [] (.ok 0)] ∧
    read twoSectors s 3 16 = .ok (1, [7]) := by
  exact Reaches.of_exec _ _ [.mount, .write 1 (replicate 16 7), .write 2 fakeEntry, .delete 1]
    _ (by decide +kernel)

/-- Wherever the power is cut, a mount succeeds, and what all calls return is explained by a store
that has done the write that was cut off or has not. -/
theorem nvs_crash_safe (hc : c.Good) (hblank : Blank c f)
    (h : Reaches (device c f) (Safe c) evs s) : ∃ b val, Explains c evs b val := by
  obtain ⟨b, val, hex, -⟩ := Reaches.inv hc hblank (fun s a ha => ⟨ha, .inr trivial⟩) h
  exact ⟨b, val, hex⟩

theorem nvs_crash_safe_twice : ∃ evs s,
    Reaches (device twoSectors (erasedFlash twoSectors)) (Safe twoSectors) evs s ∧
    evs = [.mount (.ok ()), .write 1 [1, 2, 3] (.ok 3), .write 2 (List.replicate 16 4) (.ok 16),
      .cutWrite 1 (List.replicate 16 5), .cutMount, .mount (.ok ()),
      .read 1 8 (.ok (3, [1, 2, 3])), .read 2 1 (.ok (16, [4]))] ∧
    ∃ b val, Explains twoSectors evs b val := by
  exact Reaches.of_exec_and
    [.mount, .write 1 [1, 2, 3], .write 2 (List.replicate 16 4), .cutWrite 1 (List.replicate 16 5) 5,
      .cutMount 1, .mount, .read 1 8, .read 2 1] (by decide +kernel) fun evs s hrun =>
      nvs_crash_safe twoSectors_good erasedFlash_blank hrun

/-- A write is cut off when its data was written, and a mount finds an entry in them. -/
theorem nvs_mount_finds_phantom : ∃ evs s,
    Reaches (device twoSectors (erasedFlash twoSectors)) (fun _ _ => True) evs s ∧
    evs = [.mount (.ok ()), .cutWrite 1 (List.replicate 16 7 ++ fakeEntry), .mount (.ok ())] ∧
    read twoSectors s 3 16 = .ok (1, [7]) := by
  exact Reaches.of_exec _ _ [.mount, .cutWrite 1 (replicate 16 7 ++ fakeEntry) 1, .mount] _
    (by decide +kernel)

def ops (c : Config) (s : Fs) : Action → List FlashOp
  | .write id data => (write c id data s).log
  | .delete id => (delete c id s).log
  | .read _ _ => []
  | .mount => (mount c s).log
  | .cutWrite id data n => (write c id data s).log.take n
  | .cutDelete id n => (delete c id s).log.take n
  | .cutMount n => (mount c s).log.take n

structure Apart (c : Config) (s : Fs) : Prop where
  sector : s.dataWra / 2 ^ 16 = s.ateWra / 2 ^ 16
  lt : s.ateWra / 2 ^ 16 < c.sectorCount
  le : addrOffs s.dataWra ≤ addrOffs s.ateWra + ateSize c
  room : addrOffs s.ateWra + 2 * ateSize c ≤ c.sectorSize

theorem Mounted.apart (hc : c.Good) (h : Mounted c s w es hist p d o) : Apart c s := by
  have hfront := h.idle.opened.front
  obtain ⟨-, hpos, -, hsize, hend⟩ := hc.sizes
  have htop := hfront.slots.le_top
  have hle : d ≤ o + ateSize c := by
    by_contra hlt
    obtain ⟨e, tl, rfl, -, hoff⟩ := hfront.last (by omega)
    have hfin := hfront.slots.fin_le e mem_cons_self
    have hp := hfront.slots.data_le
    rw [Entry.fin] at hfin
    omega
  refine ⟨?_, ?_, ?_, ?_⟩
  · rw [h.dataWra, h.ateWra, addrOf_div (by omega), addrOf_div (by omega)]
  · rw [h.ateWra, addrOf_div (by omega)]
    exact h.idle.lt
  · rwa [h.dataWra, h.ateWra, addrOffs_addrOf (by omega), addrOffs_addrOf (by omega)]
  · rw [h.ateWra, addrOffs_addrOf (by omega)]
    omega

theorem Inv.ops_ok (hc : c.Good) (h : Inv c Q evs s) (hok : Allowed c Q s a) :
    ∀ op ∈ ops c s a, ∃ V, OpOk c V Q op := by
  obtain ⟨b, val, -, hserves⟩ := h
  obtain ⟨hsafe, hroom⟩ := hok
  have hwrite : ∀ id data, Writable c s id data → Spares c s id data ∨ Q →
      ∀ op ∈ (Nvs.write c id data s).log, ∃ V, OpOk c V Q op := by
    intro id data hw hroom op hop
    obtain ⟨r, t, l, heq, -, hl, -⟩ := hserves.write hc hw hroom
    rw [heq] at hop
    exact ⟨_, hl op hop⟩
  have hmount : NoPhantom c s.flash → ∀ op ∈ (Nvs.mount c s).log, ∃ V, OpOk c V Q op := by
    intro hnone op hop
    obtain ⟨t, l, heq, -, hl⟩ := hserves.mount hc hnone
    rw [heq] at hop
    exact ⟨_, hl op hop⟩
  intro op hop
  cases a with
  | write id data => exact hwrite id data hsafe (hroom.imp_left And.right) op hop
  | delete id => exact hwrite id [] hsafe (hroom.imp_left And.right) op hop
  | read id len => cases hop
  | mount => exact hmount hsafe op hop
  | cutWrite id data n =>
    exact hwrite id data hsafe (hroom.imp_left And.right) op (mem_of_mem_take hop)
  | cutDelete id n => exact hwrite id [] hsafe (hroom.imp_left And.right) op (mem_of_mem_take hop)
  | cutMount n => exact hmount hsafe op (mem_of_mem_take hop)

theorem Roomy.allowed (h : Roomy c s a) : Allowed c False s a := by
  refine ⟨?_, .inl h⟩
  cases a with
  | write | delete | cutWrite | cutDelete => exact h.1
  | read | mount | cutMount => exact h

theorem spares_of_empty (hc : c.Good)
    (hother : ∀ v < c.sectorCount, v ≠ s.ateWra / 2 ^ 16 → NotClosed c s.flash v)
    (hone : addrOffs s.ateWra + ateSize c = top c)
    (hmark : (Ate.ofBytes (s.flash.bytes (base c (s.ateWra / 2 ^ 16) + top c) sizeofAte)).len = 0)
    (hsize : alSize c (payload c data).length + 4 * ateSize c ≤ c.sectorSize) :
    Spares c s id data := by
  intro w es hist p d o hm A x B hR htight
  have hslots := hm.idle.opened.front.slots
  have htop := hslots.le_top
  obtain ⟨-, hpos, -, hsize, hend⟩ := hc.sizes
  have htwo := hc.two
  rw [hm.ateWra, addrOf_div (by omega)] at hother hmark
  rw [hm.ateWra, addrOffs_addrOf (by omega)] at hone
  obtain rfl : hist = [] := by
    by_contra hne
    obtain ⟨p', o', hclosed⟩ := hm.idle.ring.closed 0 (length_pos_iff.2 hne)
    exact hclosed.not_notClosed (hother _ (back_lt hm.idle.lt)
      (back_ne (by omega) (by omega)))
  obtain ⟨rfl, rfl⟩ : A = [] ∧ x = es := by
    cases A with
    | nil => exact ⟨rfl, (cons.inj hR).1.symm⟩
    | cons y A => simp at hR
  have hkept : kept c (some ⟨id, data⟩) [] x = [] := by
    have hdata : ∀ e ∈ kept c (some ⟨id, data⟩) (flatten []) x, e.data ≠ [] :=
      fun _ => data_of_mem_kept
    have hsub : (kept c (some ⟨id, data⟩) (flatten []) x).Sublist x := kept_sublist
    refine eq_nil_iff_forall_not_mem.2 fun e he => hdata e he ?_
    have he' := hsub.subset he
    cases hslots with
    | nil => cases he'
    | @cons e' tl p' o' htl _ hfits hat =>
      obtain rfl : o' = top c := by omega
      obtain ⟨rfl, rfl⟩ := htl.of_top hc rfl
      obtain rfl := mem_singleton.1 he'
      obtain ⟨h1, h2⟩ := hfits.lt hc le_rfl
      rw [hat, Ate.ofBytes_bytes _ hfits.id_lt h1 h2] at hmark
      exact Entry.len_eq_zero.1 hmark
  obtain ⟨-, hlt⟩ := htight
  have htotal : total c [] = 0 := rfl
  rw [flatten_nil, hkept, htotal, length_nil, zero_add] at hlt
  dsimp only at hlt
  omega

/-- A sector other than the write sector is erased that is not empty, and there is no entry without
data that has the id of a mark in the write sector. -/
def unreserved (c : Config) (op : FlashOp) : Bool :=
  match op.act with
  | .write _ _ _ => false
  | .flatten off len => decide (off ≠ base c op.sector ∧
      (∃ a < len, (op.before (off + a)).val ≠ c.eraseValue) ∧ ∀ o ≤ top c, ateSize c ∣ o →
        (Ate.ofBytes (op.before.bytes (base c op.sector + o) sizeofAte)).id ≠ 0xFFFF ∨
          (Ate.ofBytes (op.before.bytes (base c op.sector + o) sizeofAte)).len ≠ 0)

theorem not_reserved (h : unreserved c op = true) : ¬op.Reserved c := by
  unfold unreserved at h
  unfold FlashOp.Reserved
  cases hact : op.act with
  | write off bs entry =>
    rw [hact] at h
    cases h
  | flatten off len =>
    rw [hact] at h
    obtain ⟨hne, ⟨a, ha, hval⟩, hnone⟩ := of_decide_eq_true h
    rintro (heq | hall | ⟨o, ho, off', hdvd, hbytes⟩)
    · exact hne heq
    · refine hval ?_
      rw [hall (off + a) (Nat.le_add_right ..) (by omega)]
      rfl
    · have hnone := hnone o ho hdvd
      rw [hbytes, Entry.ate, Entry.len_eq_zero.2 rfl] at hnone
      obtain h | h := hnone
      · exact h (by decide : le16 (.ofNat 0xFFFF) (.ofNat (0xFFFF / 256)) = 0xFFFF)
      · exact h (by decide : le16 (.ofNat 0) (.ofNat (0 / 256)) = 0)

def smallSectors : Config where
  offset := 0
  sectorSize := 56
  sectorCount := 2
  writeBlockSize := 1
  eraseValue := 0xff
  pageSize := 56
  deviceSize := 112
  dataCrc := none

/-- A write that fails changes nothing that can be read. -/
theorem nvs_failed_write_invisible {e : Errno} (hc : c.Good) (hblank : Blank c f)
    (h : Reaches (device c f) (Safe c) evs s) (hw : Writable c s id data)
    (herr : (write c id data s).result = .error e) (id' len : ℕ) :
    read c (write c id data s).state id' len = read c s id' len := by
  obtain ⟨b, val, -, hserves⟩ := Reaches.inv hc hblank (fun s a ha => ⟨ha, .inr trivial⟩) h
  obtain ⟨r, t, l, heq, hserves', -, hr, -⟩ := hserves.write hc hw (.inr trivial)
  rw [heq] at herr ⊢
  obtain rfl : r = .error e := herr
  rw [hserves.read hc hw.stray]
  exact hserves'.read hc (hr e rfl).2 id' len

theorem nvs_failed_write_invisible_nospc : ∃ evs s,
    Reaches (device twoSectors (erasedFlash twoSectors)) (Safe twoSectors) evs s ∧
    (write twoSectors 4 (List.replicate 32 9) s).result = .error .nospc ∧
    ∀ id len, read twoSectors (write twoSectors 4 (List.replicate 32 9) s).state id len =
      read twoSectors s id len := by
  obtain ⟨evs, s, hrun, hw, herr⟩ := Reaches.of_exec (device twoSectors (erasedFlash twoSectors))
    (Safe twoSectors) [.mount, .write 1 [1], .write 2 [2]]
    (fun _ s => Writable twoSectors s 4 (replicate 32 9) ∧
      (write twoSectors 4 (replicate 32 9) s).result = .error .nospc) (by decide +kernel)
  exact ⟨evs, s, hrun, herr,
    nvs_failed_write_invisible twoSectors_good erasedFlash_blank hrun hw herr⟩

/-- What was found in the data of an entry is gone after a write that fails. -/
theorem nvs_failed_write_visible : ∃ evs s,
    Reaches (device twoSectors (erasedFlash twoSectors)) (fun _ _ => True) evs s ∧
    evs = [.mount (.ok ()), .write 1 (List.replicate 16 7) (.ok 16), .write 2 fakeEntry (.ok 8),
      .write 1 [] (.ok 0)] ∧
    (write twoSectors 4 (List.replicate 32 9) s).result = .error .nospc ∧
    read twoSectors s 3 16 = .ok (1, [7]) ∧
    read twoSectors (write twoSectors 4 (List.replicate 32 9) s).state 3 16 = .error .noent := by
  exact Reaches.of_exec _ _ [.mount, .write 1 (replicate 16 7), .write 2 fakeEntry, .delete 1]
    _ (by decide +kernel)

end ZephyrRtos.Nvs
