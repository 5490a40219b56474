import Mathlib.Data.List.Nodup
import ZephyrRtos.Lib.Run
import ZephyrRtos.Sys.RingBuf

namespace ZephyrRtos.Sys

open List Function Lib Ring

variable {w : ℕ}

namespace RingBufIndex

/-- What `ring_buf_area_finish` returns, with `EINVAL` at 22. -/
def areaFinishRet (ring : RingBufIndex w) (size : ℕ) : ℤ :=
  if (ring.head - ring.tail).toNat < size then -22 else 0

end RingBufIndex

namespace RingBuf

variable (buf : RingBuf w)

def putFinish (size : ℕ) : ℤ × RingBuf w :=
  (buf.put.areaFinishRet size, { buf with put := buf.put.areaFinish buf.size size })

def getFinish (size : ℕ) : ℤ × RingBuf w :=
  (buf.get.areaFinishRet size, { buf with get := buf.get.areaFinish buf.size size })

def ringBufPeek (data : Memory) (ptr size : ℕ) : RingBuf w × Memory × ℕ :=
  let (buf, data, totalSize) := getLoop size buf data ptr size 0
  ({ buf with get := buf.get.areaFinish buf.size 0 }, data, totalSize)

/-- The cells of the bytes that were put and are not freed yet, from the oldest. -/
def unreadCells : List ℕ :=
  ring id buf.size (buf.get.tail - buf.get.base).toNat (buf.put.tail - buf.get.tail).toNat

def unread : List UInt8 := buf.unreadCells.map buf.buffer

end RingBuf

structure Area where
  ptr : ℕ
  size : ℕ

def Area.cells (a : Area) : List ℕ := (List.range a.size).map (a.ptr + ·)

/-- The ring, and the areas that its two sides have claimed since they last finished. -/
structure RingSession (w : ℕ) where
  buf : RingBuf w
  putAreas : List Area
  getAreas : List Area

inductive RingAction
  | putClaim (size : ℕ)
  /-- The producer writes to an area it has claimed. -/
  | write (ptr : ℕ) (byte : UInt8)
  | putFinish (size : ℕ)
  | getClaim (size : ℕ)
  | getFinish (size : ℕ)
  | put (data : Memory) (ptr size : ℕ)
  | get (data : Memory) (ptr size : ℕ)
  | peek (data : Memory) (ptr size : ℕ)

inductive RingEvent
  | accepted (bytes : List UInt8)
  | taken (bytes : List UInt8)
  | peeked (bytes : List UInt8)

def RingEvent.acceptedBytes : RingEvent → List UInt8
  | .accepted bytes => bytes
  | _ => []

def RingEvent.takenBytes : RingEvent → List UInt8
  | .taken bytes => bytes
  | _ => []

namespace RingSession

variable (s : RingSession w)

def putCells : List ℕ := s.putAreas.flatMap Area.cells

def getCells : List ℕ := s.getAreas.flatMap Area.cells

/-- A side that finishes has written to, or has read from, the first of its claimed cells. -/
def step (s : RingSession w) : RingAction → Option (RingSession w × List RingEvent)
  | .putClaim size =>
    let (ptr, size, buf) := s.buf.putClaim size
    some ({ s with buf, putAreas := s.putAreas ++ [⟨ptr, size⟩] }, [])
  | .write ptr byte =>
    if ptr ∈ s.putCells then
      some ({ s with buf.buffer := Function.update s.buf.buffer ptr byte }, [])
    else none
  | .putFinish size =>
    let (ret, buf) := s.buf.putFinish size
    if ret = 0 then
      some ({ s with buf, putAreas := [] }, [.accepted ((s.putCells.take size).map s.buf.buffer)])
    else some ({ s with buf }, [])
  | .getClaim size =>
    let (ptr, size, buf) := s.buf.getClaim size
    some ({ s with buf, getAreas := s.getAreas ++ [⟨ptr, size⟩] }, [])
  | .getFinish size =>
    let (ret, buf) := s.buf.getFinish size
    if ret = 0 then
      some ({ s with buf, getAreas := [] }, [.taken ((s.getCells.take size).map s.buf.buffer)])
    else some ({ s with buf }, [])
  | .put data ptr size =>
    let (buf, total) := s.buf.ringBufPut data ptr size
    some ({ s with buf }, [.accepted (data.list ptr total)])
  | .get data ptr size =>
    let (buf, data, total) := s.buf.ringBufGet data ptr size
    some ({ s with buf }, [.taken (data.list ptr total)])
  | .peek data ptr size =>
    let (buf, data, total) := s.buf.ringBufPeek data ptr size
    some ({ s with buf }, [.peeked (data.list ptr total)])

def system (w : ℕ) (buffer : Memory) (size : ℕ) : System (RingSession w) RingAction RingEvent where
  init := ⟨.init buffer size, [], []⟩
  step := step

/-- The calls that copy are made with nothing claimed on their side. -/
def Apart (s : RingSession w) : RingAction → Prop
  | .put .. => s.putCells = []
  | .get .. | .peek .. => s.getCells = []
  | _ => True

instance (s : RingSession w) (a : RingAction) : Decidable (s.Apart a) := by
  cases a <;> unfold Apart <;> infer_instance

end RingSession

def acceptedBytes (es : List RingEvent) : List UInt8 := es.flatMap RingEvent.acceptedBytes

def takenBytes (es : List RingEvent) : List UInt8 := es.flatMap RingEvent.takenBytes

section Cells

variable {S p g h k n : ℕ} {f : ℕ → UInt8}

theorem map_ring_id : (ring id S p n).map f = ring f S p n := by
  simp [ring]

theorem mem_ring_id : c ∈ ring id S p n ↔ ∃ i < n, (p + i) % S = c := by
  simp [ring]

theorem nodup_ring_id (h : n ≤ S) : (ring id S p n).Nodup := by
  refine .map_on (fun i hi j hj heq => ?_) nodup_range
  have hi := mem_range.1 hi
  have hj := mem_range.1 hj
  exact slot_inj (by omega) (by omega) heq

theorem take_ring_id (h : k ≤ n) : (ring id S p n).take k = ring id S p k := by
  rw [← Nat.add_sub_cancel' h, ring_add, take_left' length_ring]

theorem ring_update (h : c ∉ ring id S p n) : ring (update f c b) S p n = ring f S p n := by
  refine ring_congr fun i hi => update_of_ne ?_ _ _
  rintro rfl
  exact h (mem_ring_id.2 ⟨i, hi, rfl⟩)

end Cells

namespace RingBufIndex

variable {S h k n : ℕ}

section

variable (hw : 2 * S < 2 ^ w) (hn : n ≤ h)
include hw hn

theorem claim_cells (hk : h + k ≤ n + S) :
    ∃ ptr c, (claimed w S n h).areaClaim S k = (ptr, c, claimed w S n (h + c)) ∧ c ≤ k ∧
      Area.cells ⟨ptr, c⟩ = ring id S h c := by
  obtain rfl | hk0 := eq_zero_or_pos k
  · exact ⟨_, 0, Prod.ext rfl (claim_zero _), le_rfl, rfl⟩
  · have hS : 0 < S := by omega
    refine ⟨_, _, claim_claimed hS hw hn (by omega), min_le_left .., ?_⟩
    refine map_congr_left fun i hi => ?_
    exact (RingBuf.area_mod (min_le_right ..) (mem_range.1 hi)).symm

theorem finishRet_claimed (hh : h ≤ n + S) :
    (claimed w S n h).areaFinishRet k = if h - n < k then -22 else 0 := by
  rw [areaFinishRet, claimedSize_claimed hw hn hh]

theorem finish_claimed_of_lt (hh : h ≤ n + S) (hk : h - n < k) :
    (claimed w S n h).areaFinish S k = claimed w S n h := by
  rw [areaFinish, claimedSize_claimed hw hn hh, if_pos hk]

end

end RingBufIndex

namespace RingSession

open RingBufIndex

variable {s : RingSession w} {S p h g r k n : ℕ}

/-- `p` bytes were put and `g` of them were freed; the bytes up to `h` are claimed to be put, and
those up to `r` to be freed. -/
structure Tracks (S : ℕ) (s : RingSession w) (p h g r : ℕ) : Prop where
  sized : s.buf.Sized
  size : s.buf.size = S
  put : s.buf.put = claimed w S p h
  get : s.buf.get = claimed w S g r
  le_read : g ≤ r
  read_le : r ≤ p
  le_claimed : p ≤ h
  fits : h ≤ g + S
  putCells : s.putCells = ring id S p (h - p)
  getCells : s.getCells = ring id S g (r - g)

namespace Tracks

theorem init (hw : w ≤ 32) (hS : S ≤ ringBufferMaxSize w) :
    Tracks S (system w buffer S).init 0 0 0 0 := by
  obtain ⟨p, g, h, -⟩ : (.init buffer S : RingBuf w).Holds [] := .init hw hS
  refine ⟨h.sized, rfl, ?_, ?_, le_rfl, le_rfl, le_rfl, Nat.zero_le _, rfl, rfl⟩
  · simp [system, RingBuf.init, claimed, idle]
  · simp [system, RingBuf.init, claimed, idle]

section

variable (hs : Tracks S s p h g r)
include hs

theorem idx : 2 * S < 2 ^ w := hs.size ▸ hs.sized.idx

theorem spaceGet : s.buf.spaceGet = g + S - h := by
  obtain ⟨hsized, rfl, hput, hget, hgr, hrp, hph, hfits, -⟩ := hs
  exact RingBuf.spaceGet_claimed hsized hput hget (by omega) hfits

theorem sizeGet : s.buf.sizeGet = p - r := by
  obtain ⟨hsized, rfl, hput, hget, hgr, hrp, hph, hfits, -⟩ := hs
  exact RingBuf.sizeGet_claimed hsized hput hget hrp (by omega)

theorem unreadCells : s.buf.unreadCells = ring id S g (p - g) := by
  have hidx := hs.idx
  obtain ⟨-, rfl, hput, hget, hgr, hrp, hph, hfits, -⟩ := hs
  rw [RingBuf.unreadCells, hput, hget]
  simp only [claimed, idle]
  rw [ofNat_sub_ofNat (hgr.trans hrp), toNat_ofNat_of_lt (by omega),
    ofNat_sub_ofNat (Nat.mul_div_le ..), ← Nat.mod_eq_sub_mul_div]
  obtain hS | hS := eq_zero_or_pos s.buf.size
  · rw [show p - g = 0 by omega, ring_zero, ring_zero]
  · have hm := Nat.mod_lt g hS
    rw [toNat_ofNat_of_lt (by omega), ring_mod]

theorem unread : s.buf.unread = ring s.buf.buffer S g (p - g) := by
  rw [RingBuf.unread, hs.unreadCells, map_ring_id]

theorem nodup : (s.buf.unreadCells ++ s.putCells).Nodup := by
  have hle := hs.le_read.trans hs.read_le
  have hph := hs.le_claimed
  have hfits := hs.fits
  rw [hs.unreadCells, hs.putCells]
  nth_rewrite 2 [← Nat.add_sub_cancel' hle]
  rw [← ring_add]
  exact nodup_ring_id (by omega)

theorem putClaim (n : ℕ) :
    ∃ ptr c buf, s.buf.putClaim n = (ptr, c, buf) ∧ buf.buffer = s.buf.buffer ∧
      Tracks S { s with buf, putAreas := s.putAreas ++ [⟨ptr, c⟩] } p (h + c) g r := by
  have hspace := hs.spaceGet
  have hidx := hs.idx
  obtain ⟨hsized, rfl, hput, hget, hgr, hrp, hph, hfits, hputC, hgetC⟩ := hs
  obtain ⟨ptr, c, hclaim, hc, hcells⟩ := claim_cells (k := min n (g + s.buf.size - h)) hidx hph (by omega)
  refine ⟨ptr, c, { s.buf with put := claimed w s.buf.size p (h + c) }, ?_, rfl, ?_⟩
  · rw [RingBuf.putClaim, hspace, hput, hclaim]
  · refine ⟨⟨hsized.idx, hsized.size⟩, rfl, rfl, hget, hgr, hrp, by omega, by omega, ?_, hgetC⟩
    rw [show h + c - p = h - p + c by omega, ring_add, ← hputC, Nat.add_sub_cancel' hph, ← hcells]
    simp [RingSession.putCells]

theorem getClaim (n : ℕ) :
    ∃ ptr c buf, s.buf.getClaim n = (ptr, c, buf) ∧ buf.buffer = s.buf.buffer ∧
      Tracks S { s with buf, getAreas := s.getAreas ++ [⟨ptr, c⟩] } p h g (r + c) := by
  have hsz := hs.sizeGet
  have hidx := hs.idx
  obtain ⟨hsized, rfl, hput, hget, hgr, hrp, hph, hfits, hputC, hgetC⟩ := hs
  obtain ⟨ptr, c, hclaim, hc, hcells⟩ := claim_cells (k := min n (p - r)) hidx hgr (by omega)
  refine ⟨ptr, c, { s.buf with get := claimed w s.buf.size g (r + c) }, ?_, rfl, ?_⟩
  · rw [RingBuf.getClaim, hsz, hget, hclaim]
  · refine ⟨⟨hsized.idx, hsized.size⟩, rfl, hput, rfl, by omega, by omega, hph, hfits, hputC, ?_⟩
    rw [show r + c - g = r - g + c by omega, ring_add, ← hgetC, Nat.add_sub_cancel' hgr, ← hcells]
    simp [RingSession.getCells]

theorem write (byte : UInt8) (hptr : ptr ∈ s.putCells) :
    Tracks S { s with buf.buffer := update s.buf.buffer ptr byte } p h g r ∧
      ring (update s.buf.buffer ptr byte) S g (p - g) = ring s.buf.buffer S g (p - g) := by
  have hnot : ptr ∉ s.buf.unreadCells := fun hmem =>
    (nodup_append.1 hs.nodup).2.2 _ hmem _ hptr rfl
  refine ⟨⟨⟨hs.sized.idx, hs.sized.size⟩, hs.size, hs.put, hs.get, hs.le_read, hs.read_le, hs.le_claimed,
    hs.fits, hs.putCells, hs.getCells⟩, ?_⟩
  rw [hs.unreadCells] at hnot
  exact ring_update hnot

theorem putFinish (hk : p + k ≤ h) :
    Tracks S { s with buf := (s.buf.putFinish k).2, putAreas := [] } (p + k) (p + k) g r := by
  have hidx := hs.idx
  obtain ⟨hsized, rfl, hput, hget, hgr, hrp, -, hfits, -, hgetC⟩ := hs
  refine ⟨⟨hsized.idx, hsized.size⟩, rfl, ?_, hget, hgr, by omega, le_rfl, by omega, ?_, hgetC⟩
  · simp only [RingBuf.putFinish, hput]
    exact finish_claimed hidx hk (by omega)
  · rw [Nat.sub_self]
    rfl

theorem putFinish_of_lt (hk : h - p < k) : (s.buf.putFinish k).2 = s.buf := by
  have hidx := hs.idx
  obtain ⟨-, rfl, hput, -, hgr, hrp, hph, hfits, -⟩ := hs
  rw [RingBuf.putFinish, hput, finish_claimed_of_lt hidx hph (by omega) hk, ← hput]

theorem putFinish_ret : (s.buf.putFinish k).1 = 0 ↔ p + k ≤ h := by
  have hidx := hs.idx
  obtain ⟨-, rfl, hput, -, hgr, hrp, hph, hfits, -⟩ := hs
  rw [RingBuf.putFinish, hput, finishRet_claimed hidx hph (by omega)]
  split <;> simp <;> omega

theorem getFinish (hk : g + k ≤ r) :
    Tracks S { s with buf := (s.buf.getFinish k).2, getAreas := [] } p h (g + k) (g + k) := by
  have hidx := hs.idx
  obtain ⟨hsized, rfl, hput, hget, -, hrp, hph, hfits, hputC, -⟩ := hs
  refine ⟨⟨hsized.idx, hsized.size⟩, rfl, hput, ?_, le_rfl, by omega, hph, by omega, hputC, ?_⟩
  · simp only [RingBuf.getFinish, hget]
    exact finish_claimed hidx hk (by omega)
  · rw [Nat.sub_self]
    rfl

theorem getFinish_of_lt (hk : r - g < k) : (s.buf.getFinish k).2 = s.buf := by
  have hidx := hs.idx
  obtain ⟨-, rfl, -, hget, hgr, hrp, hph, hfits, -⟩ := hs
  rw [RingBuf.getFinish, hget, finish_claimed_of_lt hidx hgr (by omega) hk, ← hget]

theorem getFinish_ret : (s.buf.getFinish k).1 = 0 ↔ g + k ≤ r := by
  have hidx := hs.idx
  obtain ⟨-, rfl, -, hget, hgr, hrp, hph, hfits, -⟩ := hs
  rw [RingBuf.getFinish, hget, finishRet_claimed hidx hgr (by omega)]
  split <;> simp <;> omega

theorem claimed_eq (h0 : s.putCells = []) : h = p := by
  have hlen := congrArg length (hs.putCells.symm.trans h0)
  rw [length_ring, length_nil] at hlen
  have := hs.le_claimed
  omega

theorem read_eq (h0 : s.getCells = []) : r = g := by
  have hlen := congrArg length (hs.getCells.symm.trans h0)
  rw [length_ring, length_nil] at hlen
  have := hs.le_read
  omega

end

theorem ringBufPut (hs : Tracks S s p p g r) (data : Memory) (ptr n : ℕ) :
    ∃ k buf, s.buf.ringBufPut data ptr n = (buf, k) ∧ k = min n s.buf.spaceGet ∧
      Tracks S { s with buf } (p + k) (p + k) g r ∧
      ring buf.buffer S g (p + k - g) = ring s.buf.buffer S g (p - g) ++ data.list ptr k := by
  have hspace := hs.spaceGet
  have hidx := hs.idx
  obtain ⟨hsized, rfl, hput, hget, hgr, hrp, -, hfits, hputC, hgetC⟩ := hs
  obtain ⟨k, hk⟩ : ∃ k, k = min n (g + s.buf.size - p) := ⟨_, rfl⟩
  obtain ⟨buffer, hloop, hring, hsame⟩ :=
    RingBuf.putLoop_spec data s.buf ptr n 0 p k hsized hput hget (hgr.trans hrp) le_rfl hfits le_rfl hk
  refine ⟨k, { s.buf with buffer, put := claimed w s.buf.size (p + k) (p + k) }, ?_, ?_, ?_, ?_⟩
  · simp only [RingBuf.ringBufPut, hloop, zero_add, finish_claimed hidx le_rfl
      (show p + k ≤ p + s.buf.size by omega)]
    rfl
  · rw [hspace, hk]
  · refine ⟨⟨hsized.idx, hsized.size⟩, rfl, rfl, hget, hgr, by omega, le_rfl, ?_, ?_, hgetC⟩
    · omega
    · rw [Nat.sub_self]
      rw [Nat.sub_self] at hputC
      exact hputC
  · rw [show p + k - g = (p - g) + k by omega, ring_add, ring_congr hsame,
      Nat.add_sub_cancel' (hgr.trans hrp), hring]

section

variable (hs : Tracks S s p h g g) (data : Memory)
include hs data

theorem getLoop (ptr n : ℕ) :
    ∃ k data', RingBuf.getLoop n s.buf data ptr n 0 =
        ({ s.buf with get := claimed w S g (g + k) }, data', k) ∧
      k = min n s.buf.sizeGet ∧ data'.list ptr k = ring s.buf.buffer S g k := by
  have hsz := hs.sizeGet
  obtain ⟨hsized, rfl, hput, hget, -, hrp, hph, hfits, -⟩ := hs
  obtain ⟨data', hloop, hlist, -⟩ := RingBuf.getLoop_spec s.buf data ptr n 0 g _ hsized hput hget
    le_rfl hrp (by omega) le_rfl rfl
  rw [zero_add] at hloop
  exact ⟨_, data', hloop, by rw [hsz], hlist⟩

theorem ringBufGet (ptr n : ℕ) :
    ∃ k buf data', s.buf.ringBufGet data ptr n = (buf, data', k) ∧ k = min n s.buf.sizeGet ∧
      buf.buffer = s.buf.buffer ∧ Tracks S { s with buf } p h (g + k) (g + k) ∧
      data'.list ptr k = ring s.buf.buffer S g k := by
  have hidx := hs.idx
  have hsz := hs.sizeGet
  obtain ⟨k, data', hloop, hk, hlist⟩ := hs.getLoop data ptr n
  obtain ⟨hsized, rfl, hput, -, -, hrp, hph, hfits, hputC, hgetC⟩ := hs
  refine ⟨k, { s.buf with get := claimed w s.buf.size (g + k) (g + k) }, data', ?_, hk, rfl, ?_, hlist⟩
  · simp only [RingBuf.ringBufGet, hloop, finish_claimed hidx le_rfl
      (show g + k ≤ g + s.buf.size by omega)]
    rfl
  refine ⟨⟨hsized.idx, hsized.size⟩, rfl, hput, rfl, le_rfl, by omega, hph, ?_, hputC, ?_⟩
  · omega
  · rw [Nat.sub_self]
    rwa [Nat.sub_self] at hgetC

theorem ringBufPeek (ptr n : ℕ) :
    ∃ k data', s.buf.ringBufPeek data ptr n = (s.buf, data', k) ∧ k = min n s.buf.sizeGet ∧
      data'.list ptr k = ring s.buf.buffer S g k := by
  have hidx := hs.idx
  have hsz := hs.sizeGet
  obtain ⟨k, data', hloop, hk, hlist⟩ := hs.getLoop data ptr n
  obtain ⟨-, rfl, -, hget, -, hrp, hph, hfits, -⟩ := hs
  have hfinish := finish_claimed (k := 0) hidx (Nat.le_add_right g k)
    (by omega)
  refine ⟨k, data', ?_, hk, hlist⟩
  simp only [RingBuf.ringBufPeek, hloop, hfinish]
  rw [add_zero, RingBuf.idle_claimed, ← hget]

end

end Tracks

def InOrder (es : List RingEvent) (s : RingSession w) : Prop :=
  acceptedBytes es = takenBytes es ++ s.buf.unread

section

variable (ho : InOrder es s)
include ho

theorem InOrder.accepted (hl : s'.buf.unread = s.buf.unread ++ l) :
    InOrder (es ++ [.accepted l]) s' := by
  simp only [InOrder, acceptedBytes, takenBytes, flatMap_append, hl] at ho ⊢
  rw [ho]
  simp [RingEvent.acceptedBytes, RingEvent.takenBytes]

theorem InOrder.taken (hl : s.buf.unread = l ++ s'.buf.unread) : InOrder (es ++ [.taken l]) s' := by
  simp only [InOrder, acceptedBytes, takenBytes, flatMap_append, hl] at ho ⊢
  rw [ho]
  simp [RingEvent.acceptedBytes, RingEvent.takenBytes]

theorem InOrder.peeked : InOrder (es ++ [.peeked l]) s := by
  simpa [InOrder, acceptedBytes, takenBytes, RingEvent.acceptedBytes, RingEvent.takenBytes] using ho

theorem InOrder.quiet (hl : s'.buf.unread = s.buf.unread) : InOrder (es ++ []) s' := by
  rwa [InOrder, append_nil, hl]

end

def Inv (S : ℕ) (es : List RingEvent) (s : RingSession w) : Prop :=
  (∃ p h g r, Tracks S s p h g r) ∧ InOrder es s

variable {es es' : List RingEvent} {s' : RingSession w}

section

variable (hi : Inv S es s)
include hi

theorem Inv.putFinish (hstep : step s (.putFinish k) = some (s', es')) : Inv S (es ++ es') s' := by
  obtain ⟨⟨p, h, g, r, hs⟩, ho⟩ := hi
  have hle := hs.le_read.trans hs.read_le
  have hph := hs.le_claimed
  simp only [step, hs.putFinish_ret] at hstep
  split at hstep
  next hk =>
    cases hstep
    have hs' := hs.putFinish hk
    refine ⟨⟨_, _, _, _, hs'⟩, ho.accepted ?_⟩
    rw [hs'.unread, hs.unread, hs.putCells, take_ring_id (by omega), map_ring_id,
      show p + k - g = (p - g) + k by omega, ring_add, Nat.add_sub_cancel' hle]
    rfl
  next hk =>
    cases hstep
    rw [hs.putFinish_of_lt (by omega)]
    exact ⟨⟨_, _, _, _, hs⟩, ho.quiet rfl⟩

theorem Inv.getFinish (hstep : step s (.getFinish k) = some (s', es')) : Inv S (es ++ es') s' := by
  obtain ⟨⟨p, h, g, r, hs⟩, ho⟩ := hi
  have hrp := hs.read_le
  have hgr := hs.le_read
  simp only [step, hs.getFinish_ret] at hstep
  split at hstep
  next hk =>
    cases hstep
    have hs' := hs.getFinish hk
    refine ⟨⟨_, _, _, _, hs'⟩, ho.taken ?_⟩
    rw [hs'.unread, hs.unread, hs.getCells, take_ring_id (by omega), map_ring_id,
      show p - g = k + (p - (g + k)) by omega, ring_add]
    rfl
  next hk =>
    cases hstep
    rw [hs.getFinish_of_lt (by omega)]
    exact ⟨⟨_, _, _, _, hs⟩, ho.quiet rfl⟩

theorem Inv.put (h0 : s.putCells = []) (hstep : step s (.put data ptr n) = some (s', es')) :
    Inv S (es ++ es') s' := by
  obtain ⟨⟨p, h, g, r, hs⟩, ho⟩ := hi
  obtain rfl := hs.claimed_eq h0
  obtain ⟨k, buf, hput, -, hs', hring⟩ := hs.ringBufPut data ptr n
  simp only [step, hput] at hstep
  cases hstep
  refine ⟨⟨_, _, _, _, hs'⟩, ho.accepted ?_⟩
  rw [hs'.unread, hs.unread, hring]

theorem Inv.get (h0 : s.getCells = []) (hstep : step s (.get data ptr n) = some (s', es')) :
    Inv S (es ++ es') s' := by
  obtain ⟨⟨p, h, g, r, hs⟩, ho⟩ := hi
  obtain rfl := hs.read_eq h0
  obtain ⟨k, buf, data', hget, -, hbuf, hs', hlist⟩ := hs.ringBufGet data ptr n
  have hle := hs'.read_le
  simp only [step, hget] at hstep
  cases hstep
  refine ⟨⟨_, _, _, _, hs'⟩, ho.taken ?_⟩
  rw [hs'.unread, hs.unread, hlist, hbuf, ← ring_add]
  congr 1
  omega

theorem Inv.step (ha : s.Apart a) (hstep : step s a = some (s', es')) : Inv S (es ++ es') s' := by
  cases a with
  | putFinish size => exact hi.putFinish hstep
  | getFinish size => exact hi.getFinish hstep
  | put data ptr size => exact hi.put ha hstep
  | get data ptr size => exact hi.get ha hstep
  | putClaim size =>
    obtain ⟨⟨p, h, g, r, hs⟩, ho⟩ := hi
    obtain ⟨ptr, c, buf, hclaim, hbuf, hs'⟩ := hs.putClaim size
    simp only [RingSession.step, hclaim] at hstep
    cases hstep
    refine ⟨⟨_, _, _, _, hs'⟩, ho.quiet ?_⟩
    rw [hs'.unread, hs.unread, hbuf]
  | getClaim size =>
    obtain ⟨⟨p, h, g, r, hs⟩, ho⟩ := hi
    obtain ⟨ptr, c, buf, hclaim, hbuf, hs'⟩ := hs.getClaim size
    simp only [RingSession.step, hclaim] at hstep
    cases hstep
    refine ⟨⟨_, _, _, _, hs'⟩, ho.quiet ?_⟩
    rw [hs'.unread, hs.unread, hbuf]
  | write ptr byte =>
    obtain ⟨⟨p, h, g, r, hs⟩, ho⟩ := hi
    simp only [RingSession.step] at hstep
    split at hstep
    case isFalse => contradiction
    next hptr =>
    cases hstep
    obtain ⟨hs', hring⟩ := hs.write byte hptr
    refine ⟨⟨_, _, _, _, hs'⟩, ho.quiet ?_⟩
    rwa [hs'.unread, hs.unread]
  | peek data ptr size =>
    obtain ⟨⟨p, h, g, r, hs⟩, ho⟩ := hi
    obtain rfl := hs.read_eq ha
    obtain ⟨k, data', hpeek, -, -⟩ := hs.ringBufPeek data ptr size
    simp only [RingSession.step, hpeek] at hstep
    cases hstep
    exact ⟨⟨_, _, _, _, hs⟩, ho.peeked⟩

end

theorem Inv.of_reaches (hw : w ≤ 32) (hS : S ≤ ringBufferMaxSize w)
    (hrun : Reaches (system w buffer S) Apart es s) : Inv S es s := by
  refine Run.invariant ?_ (fun _ _ _ _ _ hi ha hstep => hi.step ha hstep) hrun
  have hinit : Tracks S (system w buffer S).init 0 0 0 0 := .init hw hS
  refine ⟨⟨_, _, _, _, hinit⟩, ?_⟩
  rw [InOrder, hinit.unread]
  rfl

end RingSession

/-- A queue of at most `S` bytes, after the events `es`. -/
structure BoundedFifo (S : ℕ) (es : List RingEvent) (s : RingSession w) : Prop where
  order : acceptedBytes es = takenBytes es ++ s.buf.unread
  space : s.buf.spaceGet + s.buf.unread.length + s.putCells.length = S
  size : s.buf.sizeGet + s.getCells.length = s.buf.unread.length
  /-- What is claimed to be written has no cell twice, nor one that is unread. -/
  apart : (s.buf.unreadCells ++ s.putCells).Nodup
  within : ∀ c ∈ s.putCells, c < S
  /-- What is claimed to be read are the oldest bytes. -/
  oldest : s.getCells.map s.buf.buffer <+: s.buf.unread
  finish_put : ∀ n, (s.buf.putFinish n).1 = 0 ↔ n ≤ s.putCells.length
  finish_get : ∀ n, (s.buf.getFinish n).1 = 0 ↔ n ≤ s.getCells.length
  put : s.putCells = [] → ∀ data ptr n, (s.buf.ringBufPut data ptr n).2 = min n s.buf.spaceGet
  get : s.getCells = [] → ∀ data ptr n, (s.buf.ringBufGet data ptr n).2.2 = min n s.buf.sizeGet
  peek : s.getCells = [] → ∀ data ptr n, ∃ data',
    s.buf.ringBufPeek data ptr n = (s.buf, data', min n s.buf.sizeGet) ∧
      data'.list ptr (min n s.buf.sizeGet) = s.buf.unread.take n

namespace RingSession

variable {S : ℕ} {es : List RingEvent} {s : RingSession w}

theorem Inv.boundedFifo (hi : Inv S es s) : BoundedFifo S es s := by
  obtain ⟨⟨p, h, g, r, hs⟩, ho⟩ := hi
  have hgr := hs.le_read
  have hrp := hs.read_le
  have hph := hs.le_claimed
  have hfits := hs.fits
  have hput : s.putCells.length = h - p := by rw [hs.putCells, length_ring]
  have hget : s.getCells.length = r - g := by rw [hs.getCells, length_ring]
  have hunread : s.buf.unread.length = p - g := by rw [hs.unread, length_ring]
  refine ⟨ho, ?_, ?_, hs.nodup, fun c hc => ?_, ?_, fun n => ?_, fun n => ?_, fun h0 data ptr n => ?_,
    fun h0 data ptr n => ?_, fun h0 data ptr n => ?_⟩
  · rw [hs.spaceGet]
    omega
  · rw [hs.sizeGet]
    omega
  · rw [hs.putCells] at hc
    obtain ⟨i, hi, rfl⟩ := mem_ring_id.1 hc
    exact Nat.mod_lt _ (by omega)
  · rw [hs.getCells, hs.unread, map_ring_id, ← Nat.add_sub_cancel' (show r - g ≤ p - g by omega), ring_add]
    exact prefix_append _ _
  · rw [hs.putFinish_ret]
    omega
  · rw [hs.getFinish_ret]
    omega
  · obtain rfl := hs.claimed_eq h0
    obtain ⟨k, buf, hcall, hk, -⟩ := hs.ringBufPut data ptr n
    rw [hcall, hk]
  · obtain rfl := hs.read_eq h0
    obtain ⟨k, buf, data', hcall, hk, -⟩ := hs.ringBufGet data ptr n
    rw [hcall, hk]
  obtain rfl := hs.read_eq h0
  obtain ⟨k, data', hcall, hk, hlist⟩ := hs.ringBufPeek data ptr n
  rw [← hk]
  refine ⟨data', hcall, ?_⟩
  rw [hs.sizeGet] at hk
  rw [hlist, hs.unread, ← map_ring_id, ← map_ring_id, ← map_take, hk]
  obtain hn | hn := le_total n (p - r)
  · rw [min_eq_left hn, take_ring_id hn]
  · rw [min_eq_right hn, take_of_length_le (by rwa [length_ring])]

end RingSession

/-- The ring is a bounded queue of bytes, whatever is claimed in between and however often its
indices wrap. -/
theorem ring_buf_bounded_fifo {S : ℕ} {buffer : Memory} {es : List RingEvent} {s : RingSession w}
    (hw : w ≤ 32) (hS : S ≤ ringBufferMaxSize w)
    (hrun : Reaches (RingSession.system w buffer S) RingSession.Apart es s) : BoundedFifo S es s :=
  (RingSession.Inv.of_reaches hw hS hrun).boundedFifo

theorem ring_buf_bounded_fifo_claims : ∃ es s,
    Reaches (RingSession.system 16 (fun _ => 0) 3) RingSession.Apart es s ∧
      takenBytes es = [1, 2] ∧ s.buf.unread = [3, 4] ∧ s.buf.spaceGet = 1 ∧ BoundedFifo 3 es s := by
  obtain ⟨es, s, hrun, htaken, hunread, hspace⟩ := Reaches.of_exec
    (RingSession.system 16 (fun _ => 0) 3) RingSession.Apart
    [.putClaim 1, .putClaim 1, .write 0 1, .write 1 2, .putFinish 2, .getClaim 1, .getClaim 4,
      .getFinish 2, .put (fun i => .ofNat (3 + i)) 0 2, .peek (fun _ => 0) 0 9]
    (fun es s => takenBytes es = [1, 2] ∧ s.buf.unread = [3, 4] ∧ s.buf.spaceGet = 1)
    (by decide +kernel)
  exact ⟨es, s, hrun, htaken, hunread, hspace, ring_buf_bounded_fifo (by decide) (by decide) hrun⟩

/-- A copying call on a side with bytes claimed: a put accepts bytes that are never read, and a
get returns a byte that is read again. -/
theorem ring_buf_put_get_over_claim :
    (∃ es s, Reaches (RingSession.system 16 (fun _ => 0) 4) (fun _ _ => True) es s ∧
      acceptedBytes es = [7] ∧ takenBytes es = [0]) ∧
    ∃ es s, Reaches (RingSession.system 16 (fun _ => 0) 4) (fun _ _ => True) es s ∧
      acceptedBytes es = [1, 2] ∧ takenBytes es = [2, 2] := by
  constructor
  · exact Reaches.of_exec _ _ [.putClaim 1, .put (fun _ => 7) 0 1, .get (fun _ => 0) 0 1] _
      (by decide +kernel)
  · exact Reaches.of_exec _ _
      [.put (fun i => .ofNat (1 + i)) 0 2, .getClaim 1, .get (fun _ => 0) 0 1,
        .get (fun _ => 0) 0 1] _ (by decide +kernel)

end ZephyrRtos.Sys
