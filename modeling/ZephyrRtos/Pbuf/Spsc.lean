import ZephyrRtos.Lib.MachineInt
import ZephyrRtos.Lib.Memory
import ZephyrRtos.Lib.Run

/-! `lib/os/spsc_pbuf.c`: packets in a ring of bytes, written by one side and read by the other.
The two run in parallel: a step makes at most one access to what they share. -/

namespace ZephyrRtos.SpscPbuf

open Function Lib

def lenSz : ℕ := 4

def paddingMark : UInt8 := 0xFF

def maxLen : ℕ := 0xFF00

def roundUp (x : ℕ) : ℕ := (x + 3) / 4 * 4

/-- `sizeof(struct spsc_pbuf)`, with `pad` bytes in front of the write index when the cache is
handled. -/
def sizeofPbuf (pad : ℕ) : ℕ := 12 + pad + 4

def getLen (pad blen : ℕ) (cache : Bool) : ℕ :=
  if cache then blen - 12 - (pad + 4) else blen - 12 - 4

/-- What `spsc_pbuf_init` asserts. -/
def Admissible (pad blen : ℕ) : Prop := sizeofPbuf pad + lenSz < blen

def getBe16 (m : Memory) (a : ℕ) : ℕ := (m a).toNat * 256 + (m (a + 1)).toNat

def putBe16 (m : Memory) (a v : ℕ) : Memory :=
  update (update m a (UInt8.ofNat (v / 256))) (a + 1) (UInt8.ofNat v)

abbrev Packet := List UInt8

inductive Producer
  | idle
  /-- It is about to write the marker. -/
  | padding (len rd : ℕ)
  /-- It has written the marker and is about to go back to the start. -/
  | wrapping (len rd : ℕ)
  | allocated (len : ℕ)
  | committing (len : ℕ)
  deriving DecidableEq

/-- Where the consumer is in its call. -/
inductive Consumer
  | idle
  | claiming (wr : ℕ)
  | padding (wr : ℕ)
  | wrapping (wr : ℕ)
  | atStart
  | claimed (len : ℕ)
  /-- It has read the packet and has found the marker behind it. -/
  | checking (packet : Packet) (rd : ℕ)
  | freeing (packet : Packet) (rd : ℕ)
  deriving DecidableEq

structure Pbuf where
  len : ℕ
  data : Memory
  rdIdx : ℕ
  wrIdx : ℕ
  producer : Producer
  consumer : Consumer

/-- A write is an `alloc`, the `fill` of all of it and its `commit`; a read is a `claim` and then a
`free`, or a `release` where the caller's buffer is short or missing. -/
inductive Action
  | alloc (len : ℕ)
  | fill (i : ℕ) (byte : UInt8)
  | commit (len : ℕ)
  | produce
  | claim
  | free
  | release
  | consume

inductive Event
  | written (packet : Packet)
  | read (packet : Packet)

def allocLen (len : ℕ) (freeSpace : ℤ) : ℕ := min len (max (freeSpace - lenSz) 0).toNat

variable (s : Pbuf)

/-- `spsc_pbuf_alloc` up to the padding; a bad length is refused. -/
def alloc (len : ℕ) : Pbuf :=
  if len = 0 ∨ maxLen < len then s
  else if s.rdIdx ≤ s.wrIdx then
    let remaining := int32 (s.len - s.wrIdx)
    let space := if len = maxLen then lenSz + 1 else len + lenSz
    -- `remaining` is compared as an unsigned number
    if space ≤ uint32 remaining ∨ s.rdIdx ≤ space then
      { s with
        producer := .allocated
          (allocLen len (int32 (remaining - if 0 < s.rdIdx then 0 else lenSz))) }
    else { s with producer := .padding len s.rdIdx }
  else { s with producer := .allocated (allocLen len (int32 (s.rdIdx - s.wrIdx - lenSz))) }

def nextWr (len : ℕ) : ℕ :=
  let wrIdx := roundUp (s.wrIdx + (len + lenSz))
  if wrIdx = s.len then 0 else wrIdx

/-- The index after a packet, which `spsc_pbuf_free` keeps in 16 bits. -/
def nextRd (len : ℕ) : ℕ := roundUp ((s.rdIdx + len + lenSz) % 2 ^ 16) % 2 ^ 16

def produce : Option (Pbuf × List Event) :=
  match s.producer with
  | .padding len rd =>
    some ({ s with
      data := update s.data s.wrIdx paddingMark
      producer := .wrapping len rd }, [])
  | .wrapping len rd =>
    some ({ s with wrIdx := 0, producer := .allocated (allocLen len (int32 (rd - lenSz))) }, [])
  | .committing len =>
    some ({ s with wrIdx := nextWr s len, producer := .idle },
      [.written (s.data.list (s.wrIdx + lenSz) len)])
  | _ => none

def consume : Option (Pbuf × List Event) :=
  match s.consumer with
  | .claiming wr =>
    if s.data s.rdIdx = paddingMark then some ({ s with consumer := .padding wr }, [])
    else some ({ s with consumer := .claimed (getBe16 s.data s.rdIdx) }, [])
  | .padding wr =>
    if s.rdIdx = s.wrIdx then some ({ s with consumer := .idle }, [])
    else some ({ s with consumer := .wrapping wr }, [])
  | .wrapping wr =>
    -- the start is compared with the write index of the beginning of the call
    some ({ s with rdIdx := 0, consumer := if wr = 0 then .idle else .atStart }, [])
  | .atStart => some ({ s with consumer := .claimed (getBe16 s.data s.rdIdx) }, [])
  | .checking packet rd =>
    some ({ s with consumer := .freeing packet (if rd ≠ s.wrIdx then 0 else rd) }, [])
  | .freeing packet rd => some ({ s with rdIdx := rd, consumer := .idle }, [.read packet])
  | _ => none

/-- `spsc_pbuf_free` up to its look at the byte behind the packet. -/
def free (len : ℕ) : Consumer :=
  let packet := s.data.list (s.rdIdx + lenSz) len
  let rdIdx := nextRd s len
  if rdIdx ≠ s.len then
    if s.data rdIdx = paddingMark then .checking packet rdIdx else .freeing packet rdIdx
  else .freeing packet 0

def step : Action → Option (Pbuf × List Event)
  | .alloc len =>
    match s.producer with
    | .idle | .allocated _ => some (alloc s len, [])
    | _ => none
  | .fill i byte =>
    match s.producer with
    | .allocated len =>
      if i < len then
        some ({ s with data := update s.data (s.wrIdx + lenSz + i) byte }, [])
      else none
    | _ => none
  | .commit len =>
    match s.producer with
    | .allocated len' =>
      if len ≤ len' then
        if len = 0 then some ({ s with producer := .idle }, [])
        else some ({ s with data := putBe16 s.data s.wrIdx len, producer := .committing len }, [])
      else none
    | _ => none
  | .produce => produce s
  | .claim =>
    match s.consumer with
    | .idle =>
      some (if s.rdIdx = s.wrIdx then s else { s with consumer := .claiming s.wrIdx }, [])
    | _ => none
  | .free =>
    match s.consumer with
    | .claimed len => some ({ s with consumer := free s len }, [])
    | _ => none
  | .release =>
    match s.consumer with
    | .claimed _ => some ({ s with consumer := .idle }, [])
    | _ => none
  | .consume => consume s

/-- The system after `spsc_pbuf_init` on a buffer of `blen` bytes with these contents. -/
def system (pad blen : ℕ) (cache : Bool) (data : Memory) : System Pbuf Action Event where
  init := ⟨getLen pad blen cache, data, 0, 0, .idle, .idle⟩
  step := step

def Event.packetsWritten : Event → List Packet
  | .written packet => [packet]
  | .read _ => []

def Event.packetsRead : Event → List Packet
  | .written _ => []
  | .read packet => [packet]

def packetsWritten (es : List Event) : List Packet := es.flatMap Event.packetsWritten

def packetsRead (es : List Event) : List Packet := es.flatMap Event.packetsRead

/-- The producer is about to publish a packet at the index where the consumer, which frees the packet
before it, has read a byte that looks like the marker and has yet to read the write index. -/
def misleads : Bool :=
  match s.producer, s.consumer with
  | .committing _, .checking _ rd => rd = s.wrIdx ∧ rd ≠ 0
  | _, _ => false

/-- No packet has the length whose header looks like the marker, and no consumer is misled. -/
def Undisturbed (s : Pbuf) : Action → Prop
  | .commit len => len ≠ maxLen
  | .produce => misleads s = false
  | _ => True

instance (s : Pbuf) (a : Action) : Decidable (Undisturbed s a) := by
  cases a <;> unfold Undisturbed <;> infer_instance

variable {m m' : Memory} {L r e rd wr n k a : ℕ} {p : Packet} {ps fs bs : List Packet}

def extent (n : ℕ) : ℕ := roundUp (n + lenSz)

theorem extent_dvd (n : ℕ) : 4 ∣ extent n := dvd_mul_left ..

theorem lenSz_le_extent (n : ℕ) : n + 4 ≤ extent n := by
  rw [extent, roundUp, lenSz]
  omega

theorem extent_le (hk : 4 ∣ k) (h : n + 4 ≤ k) : extent n ≤ k := by
  rw [extent, roundUp, lenSz]
  omega

theorem roundUp_add (hr : 4 ∣ r) : roundUp (r + (n + lenSz)) = r + extent n := by
  rw [extent, roundUp, roundUp]
  omega

structure Header (m : Memory) (r n : ℕ) : Prop where
  be16 : getBe16 m r = n
  pos : 0 < n
  lt : n < maxLen

theorem Header.ne_paddingMark (h : Header m r n) : m r ≠ paddingMark := by
  intro hm
  have hlt := h.lt
  rw [← h.be16, getBe16, hm, paddingMark, maxLen] at hlt
  simp at hlt

theorem Header.congr (h : Header m r n) (h0 : m' r = m r) (h1 : m' (r + 1) = m (r + 1)) :
    Header m' r n :=
  ⟨by rw [← h.be16, getBe16, getBe16, h0, h1], h.pos, h.lt⟩

theorem getBe16_putBe16 (h : n < 2 ^ 16) : getBe16 (putBe16 m a n) a = n := by
  rw [getBe16, putBe16, update_of_ne (by omega), update_self,
    update_self, UInt8.toNat_ofNat', UInt8.toNat_ofNat']
  omega

theorem header_putBe16 (h0 : 0 < n) (h : n < maxLen) : Header (putBe16 m a n) a n :=
  ⟨getBe16_putBe16 (h.trans (by decide)), h0, h⟩

/-- The packets that fill the bytes from `r` up to `e`. -/
inductive Seg (m : Memory) : ℕ → ℕ → List Packet → Prop
  | nil {r : ℕ} : Seg m r r []
  | cons {r e n : ℕ} {ps : List Packet} : Header m r n → Seg m (r + extent n) e ps →
      Seg m r e (m.list (r + lenSz) n :: ps)

namespace Seg

theorem le (h : Seg m r e ps) : r ≤ e := by
  induction h with
  | nil => exact le_rfl
  | cons _ _ ih => exact (Nat.le_add_right ..).trans ih

theorem congr (h : Seg m r e ps) (hm : Memory.Agree m m' r e) : Seg m' r e ps := by
  induction h with
  | nil => exact .nil
  | @cons r e n ps hn h ih =>
    have hext := lenSz_le_extent n
    have hle := h.le
    have hlist : m'.list (r + lenSz) n = m.list (r + lenSz) n :=
      Memory.list_congr fun b h1 h2 => hm b (by omega) (by rw [lenSz] at h2; omega)
    rw [← hlist]
    refine .cons (hn.congr (hm _ le_rfl (by omega)) (hm _ (by omega) (by omega))) (ih ?_)
    exact fun b h1 h2 => hm b (by omega) h2

theorem snoc (h : Seg m r e ps) (hn : Header m e n) :
    Seg m r (e + extent n) (ps ++ [m.list (e + lenSz) n]) := by
  induction h with
  | nil => exact .cons hn .nil
  | cons hn' _ ih => exact .cons hn' (ih hn)

theorem eq_nil (h : Seg m r r ps) : ps = [] := by
  cases h with
  | nil => rfl
  | @cons _ _ n _ _ h =>
    have := h.le
    have := lenSz_le_extent n
    omega

theorem eq_of_nil (h : Seg m r e []) : r = e := by
  cases h
  rfl

theorem ne_nil (h : Seg m r e ps) (hne : r ≠ e) : ps ≠ [] := by
  rintro rfl
  exact hne h.eq_of_nil

section

variable (h : Seg m r e (p :: ps))
include h

theorem header : Header m r p.length := by
  cases h with
  | cons hn _ => rwa [Memory.length_list]

theorem packet : m.list (r + lenSz) p.length = p := by
  cases h with
  | cons _ _ => rw [Memory.length_list]

theorem tail : Seg m (r + extent p.length) e ps := by
  cases h with
  | cons _ h => rwa [Memory.length_list]

end

end Seg

/-- The packets in the buffer: those from the read index on, up to the write index or to where
the producer went back to the start (`wrap`), and then those from the start. -/
inductive Layout (L : ℕ) (m : Memory) (rd wr : ℕ) : Option ℕ → List Packet → List Packet → Prop
  | straight {fs : List Packet} : Seg m rd wr fs → Layout L m rd wr none fs []
  | wrapped {e : ℕ} {fs bs : List Packet} : Seg m rd e fs → (e = L ∨ e < L ∧ m e = paddingMark) → Seg m 0 wr bs →
      wr < rd → Layout L m rd wr (some e) fs bs

namespace Layout

variable {wrap : Option ℕ}

theorem le_of_none (h : Layout L m rd wr none fs bs) : rd ≤ wr := by
  cases h with
  | straight h => exact h.le

theorem lt_of_some (h : Layout L m rd wr (some e) fs bs) : wr < rd := by
  cases h with
  | wrapped _ _ _ h => exact h

theorem eq_none (h : Layout L m rd wr wrap fs bs) (hle : rd ≤ wr) : wrap = none := by
  cases h with
  | straight _ => rfl
  | wrapped _ _ _ hlt => omega

theorem congr (h : Layout L m rd wr wrap fs bs) (hm : Memory.AgreeOff m m' wr k)
    (hk : wr < rd → k ≤ rd) : Layout L m' rd wr wrap fs bs := by
  cases h with
  | straight h => exact .straight (h.congr (hm.agree (.inl le_rfl)))
  | @wrapped e fs bs h he h' hlt =>
    have hle := h.le
    refine .wrapped (h.congr (hm.agree (.inr (hk hlt)))) (he.imp_right fun he => ⟨he.1, ?_⟩)
      (h'.congr (hm.agree (.inl le_rfl))) hlt
    rw [hm e (.inr ((hk hlt).trans hle)), he.2]

section

variable (h : Layout L m rd wr wrap (p :: fs) bs)
include h

theorem head : Header m rd p.length ∧ m.list (rd + lenSz) p.length = p := by
  cases h with
  | straight h => exact ⟨h.header, h.packet⟩
  | wrapped h _ _ _ => exact ⟨h.header, h.packet⟩

theorem head_le (hL : wr < L) : rd + extent p.length ≤ L := by
  cases h with
  | straight h => exact h.tail.le.trans hL.le
  | wrapped h he _ _ =>
    have := h.tail.le
    omega

theorem tail : Layout L m (rd + extent p.length) wr wrap fs bs := by
  cases h with
  | straight h => exact .straight h.tail
  | wrapped h he h' hlt => exact .wrapped h.tail he h' (by omega)

end

theorem restart (h : Layout L m rd wr (some e) fs bs) : Layout L m 0 wr none bs [] := by
  cases h with
  | wrapped _ _ h _ => exact .straight h

end Layout

end ZephyrRtos.SpscPbuf
