import ZephyrRtos.Lib.Bytes
import ZephyrRtos.Lib.Cells
import ZephyrRtos.Sys.Crc

/-! The flash circular buffer (`subsys/fs/fcb`). -/

namespace ZephyrRtos.Fcb

open Lib Sys

inductive Errno
  | inval | io | nomem | nomsg | nospc | notsup | badmsg
  deriving DecidableEq

/-- What the caller of `fcb_init` fills in, the parameters of the flash, and
`CONFIG_FCB_ALLOW_FIXED_ENDMARKER` with `FCB_FLAGS_CRC_DISABLED`. -/
structure Config where
  magic : UInt32
  version : UInt8
  sectorCnt : ℕ
  scratchCnt : ℕ
  sectorSize : ℕ → ℕ
  align : ℕ
  eraseValue : UInt8
  allowFixedEndmarker : Bool
  crcDisabled : Bool

abbrev Flash := ℕ → Cells UInt8

structure Elem where
  elemOff : ℕ
  dataOff : ℕ
  dataLen : ℕ
  deriving DecidableEq

/-- `struct fcb_entry`, with `none` for a sector that is `NULL`. -/
structure Entry where
  sector : Option ℕ
  elem : Elem
  deriving DecidableEq

structure State where
  flash : Flash
  oldest : ℕ
  activeSector : ℕ
  active : Elem
  activeId : ℕ

variable (c : Config)

def writeAlignmentBufferSize : ℕ := 16

def fcbMaxLen : ℕ := 0x3fff

def crcSz : ℕ := 1

def fixedEndmarker : UInt8 := 0xab

def sizeofDiskArea : ℕ := 8

def mk32 (val : UInt8) : UInt32 :=
  (val.toUInt32 <<< 24) ||| (val.toUInt32 <<< 16) ||| (val.toUInt32 <<< 8) ||| val.toUInt32

def flashMagic : UInt32 := c.magic ^^^ ~~~(mk32 c.eraseValue)

/-- `fcb_len_in_flash`, where `x & ~m` is `x - (x & m)`. -/
def lenInFlash (len : ℕ) : ℕ :=
  if c.align ≤ 1 then len else len + (c.align - 1) - ((len + (c.align - 1)) &&& (c.align - 1))

def int16 (x : ℕ) : ℤ := Int.bmod x (2 ^ 16)

/-- `FCB_ID_GT`: the difference is one of `int`. -/
def idGt (a b : ℕ) : Bool := int16 a - int16 b > 0

def flashRead (f : Flash) (sector off len : ℕ) : Except Errno (List UInt8) :=
  if off + len > c.sectorSize sector then .error .inval else .ok ((f sector).slice off len)

def flashWrite (f : Flash) (sector off : ℕ) (bs : List UInt8) : Except Errno Flash :=
  if off + bs.length > c.sectorSize sector then .error .inval
  else .ok (Function.update f sector ((f sector).put off bs))

def eraseSector (f : Flash) (sector : ℕ) : Flash :=
  Function.update f sector ((f sector).fill 0 (c.sectorSize sector) c.eraseValue)

def putLen (len : ℕ) : Except Errno (List UInt8) :=
  if len < 0x80 then .ok [UInt8.ofNat len ^^^ ~~~c.eraseValue]
  else if len ≤ fcbMaxLen then
    .ok [UInt8.ofNat (len ||| 0x80) ^^^ ~~~c.eraseValue, UInt8.ofNat (len >>> 7) ^^^ ~~~c.eraseValue]
  else .error .inval

/-- `fcb_get_len`: the number of bytes of the length, and the length. -/
def getLen (b0 b1 : UInt8) : Except Errno (ℕ × ℕ) :=
  let buf0 := b0 ^^^ ~~~c.eraseValue
  if buf0 &&& 0x80 ≠ 0 then
    if b0 = c.eraseValue ∧ b1 = c.eraseValue then .error .notsup
    else
      let buf1 := b1 ^^^ ~~~c.eraseValue
      .ok (2, ((buf0 &&& 0x7f).toNat ||| buf1.toNat <<< 7) % 2 ^ 16)
  else .ok (1, buf0.toNat)

def hdrBytes (id : ℕ) : List UInt8 :=
  leBytes 4 (flashMagic c).toNat ++ [c.version, c.eraseValue] ++ leBytes 2 id ++
    List.replicate 8 c.eraseValue

def sectorHdrInit (f : Flash) (sector id : ℕ) : Except Errno Flash :=
  match flashWrite c f sector 0 (hdrBytes c (id % 2 ^ 16)) with
  | .ok f => .ok f
  | .error _ => .error .io

def sectorHdrRead (f : Flash) (sector : ℕ) : Except Errno (Option ℕ) :=
  match flashRead c f sector 0 sizeofDiskArea with
  | .error _ => .error .io
  | .ok bs =>
    let magic := ofLeBytes (bs.take 4)
    if magic = (mk32 c.eraseValue).toNat then .ok none
    else if magic ≠ (flashMagic c).toNat then .error .nomsg
    else .ok (some (ofLeBytes (bs.drop 6)))

def crc8Loop (f : Flash) (sector : ℕ) : ℕ → ℕ → ℕ → UInt8 → Except Errno UInt8
  | 0, _, _, crc8 => .ok crc8
  | blocks + 1, off, fin, crc8 =>
    if off < fin then
      let blkSz := min (fin - off) 32
      match flashRead c f sector off blkSz with
      | .error _ => .error .io
      | .ok bs => crc8Loop f sector blocks (off + blkSz) fin (crc8Ccitt crc8 bs)
    else .ok crc8

/-- The length of the element at `fe_elem_off`, with the bytes that hold it. -/
def elemLen (f : Flash) (sector : ℕ) (loc : Elem) : Except Errno (List UInt8 × Elem) :=
  if loc.elemOff + 2 > c.sectorSize sector then .error .notsup
  else
    match flashRead c f sector loc.elemOff 2 with
    | .error _ => .error .io
    | .ok bs =>
      match getLen c (bs.getD 0 0) (bs.getD 1 0) with
      | .error e => .error e
      | .ok (cnt, len) => .ok (bs.take cnt, ⟨loc.elemOff, loc.elemOff + lenInFlash c cnt, len⟩)

def elemCrc8 (f : Flash) (sector : ℕ) (loc : Elem) : Except Errno UInt8 × Elem :=
  match elemLen c f sector loc with
  | .error e => (.error e, loc)
  | .ok (bs, loc) =>
    (crc8Loop c f sector loc.dataLen loc.dataOff (loc.dataOff + loc.dataLen) (crc8Ccitt 0xff bs), loc)

def elemEndmarkerFixed (f : Flash) (sector : ℕ) (loc : Elem) : Except Errno UInt8 × Elem :=
  match elemLen c f sector loc with
  | .error e => (.error e, loc)
  | .ok (_, loc) => (.ok fixedEndmarker, loc)

def elemEndmarker (f : Flash) (sector : ℕ) (loc : Elem) : Except Errno UInt8 × Elem :=
  if c.allowFixedEndmarker ∧ c.crcDisabled then elemEndmarkerFixed c f sector loc
  else elemCrc8 c f sector loc

def markerOff (loc : Elem) : ℕ := loc.dataOff + lenInFlash c loc.dataLen

def elemInfo (f : Flash) (sector : ℕ) (loc : Elem) : Except Errno Unit × Elem :=
  match elemEndmarker c f sector loc with
  | (.error e, loc) => (.error e, loc)
  | (.ok em, loc) =>
    match flashRead c f sector (markerOff c loc) 1 with
    | .error _ => (.error .io, loc)
    | .ok bs =>
      let flEm := bs.getD 0 0
      if c.allowFixedEndmarker ∧ flEm ≠ em then
        match elemCrc8 c f sector loc with
        | (.error e, loc) => (.error e, loc)
        | (.ok em, loc) => (if flEm ≠ em then .error .badmsg else .ok (), loc)
      else (if flEm ≠ em then .error .badmsg else .ok (), loc)

def behind (loc : Elem) : ℕ := markerOff c loc + lenInFlash c crcSz

/-- The loop of `fcb_getnext_in_sector`, for as many elements as a sector may have. -/
def getnextInSectorLoop (f : Flash) (sector : ℕ) : ℕ → Elem → Except Errno Unit × Elem
  | 0, loc => (.error .badmsg, loc)
  | fuel + 1, loc =>
    match elemInfo c f sector { loc with elemOff := behind c loc } with
    | (.error .badmsg, loc) => getnextInSectorLoop f sector fuel loc
    | r => r

def getnextInSector (f : Flash) (sector : ℕ) (loc : Elem) : Except Errno Unit × Elem :=
  match elemInfo c f sector loc with
  | (.ok _, loc) | (.error .badmsg, loc) =>
    getnextInSectorLoop c f sector (c.sectorSize sector + 1) loc
  | r => r

def getnextSector (sector : ℕ) : ℕ := if sector + 1 ≥ c.sectorCnt then 0 else sector + 1

inductive Stage
  | inSector
  | nextSector

def Stage.ofErrno : Errno → Stage
  | .badmsg => .inSector
  | _ => .nextSector

/-- The loop of `fcb_getnext_nolock`, and its label `next_sector`. -/
def getnextLoop (s : State) : ℕ → Stage → ℕ → Elem → Except Errno Unit × ℕ × Elem
  | 0, _, sector, loc => (.error .badmsg, sector, loc)
  | fuel + 1, .inSector, sector, loc =>
    match getnextInSector c s.flash sector loc with
    | (.ok _, loc) => (.ok (), sector, loc)
    | (.error e, loc) => getnextLoop s fuel (.ofErrno e) sector loc
  | fuel + 1, .nextSector, sector, loc =>
    if sector = s.activeSector then (.error .notsup, sector, loc)
    else
      let sector := getnextSector c sector
      match elemInfo c s.flash sector { loc with elemOff := lenInFlash c sizeofDiskArea } with
      | (.ok _, loc) => (.ok (), sector, loc)
      | (.error e, loc) => getnextLoop s fuel (.ofErrno e) sector loc

def getnext (s : State) (loc : Entry) : Except Errno Unit × Entry :=
  let sector := loc.sector.getD s.oldest
  let fuel := 2 * c.sectorCnt + 1
  let found (r : Except Errno Unit × ℕ × Elem) : Except Errno Unit × Entry := (r.1, ⟨some r.2.1, r.2.2⟩)
  if loc.elem.elemOff = 0 then
    found <| match elemInfo c s.flash sector { loc.elem with elemOff := lenInFlash c sizeofDiskArea } with
      | (.ok _, loc) => (.ok (), sector, loc)
      | (.error e, loc) => getnextLoop c s fuel (.ofErrno e) sector loc
  else
    match getnextInSector c s.flash sector loc.elem with
    | (.ok _, loc) => (.ok (), ⟨some sector, loc⟩)
    | (.error .notsup, loc) => found (getnextLoop c s fuel .nextSector sector loc)
    | (.error .badmsg, loc) => found (getnextLoop c s fuel .inSector sector loc)
    | (.error _, loc) => (.ok (), ⟨some sector, loc⟩)

structure Found where
  oldest : ℕ
  newest : ℕ
  oldestSector : ℕ
  newestSector : ℕ

/-- A header that the loop of `fcb_init` has read. -/
def Found.see (sector id : ℕ) : Option Found → Found
  | none => ⟨id, id, sector, sector⟩
  | some r =>
    if idGt id r.newest then { r with newest := id, newestSector := sector }
    else if idGt r.oldest id then { r with oldest := id, oldestSector := sector }
    else r

/-- The loop of `fcb_init` over the sectors. -/
def findSectors (f : Flash) : List ℕ → Option Found → Except Errno (Option Found)
  | [], r => .ok r
  | sector :: sectors, r => do
    match ← sectorHdrRead c f sector with
    | none => findSectors f sectors r
    | some id => findSectors f sectors (some (Found.see sector id r))

/-- The last loop of `fcb_init`. -/
def findEnd (f : Flash) (sector : ℕ) : ℕ → Elem → Except Errno Elem
  | 0, _ => .error .badmsg
  | fuel + 1, loc =>
    match getnextInSector c f sector loc with
    | (.ok _, loc) => findEnd f sector fuel loc
    | (.error .notsup, loc) => .ok loc
    | (.error e, _) => .error e

def init (f : Flash) : Except Errno State := do
  if c.sectorCnt < c.scratchCnt + 1 then .error .inval
  if c.align = 0 then .error .inval
  if c.align > writeAlignmentBufferSize then .error .nomem
  let (f, r) ← match ← findSectors c f (List.range c.sectorCnt) none with
    | some r => pure (f, r)
    | none => do
      let f ← sectorHdrInit c f 0 0
      pure (f, ⟨0, 0, 0, 0⟩)
  let start : Elem := ⟨lenInFlash c sizeofDiskArea, 0, 0⟩
  let active ← findEnd c f r.newestSector (c.sectorSize r.newestSector + 1) start
  return ⟨f, r.oldestSector, r.newestSector, active, r.newest⟩

/-- The loop of `fcb_new_sector`: whether the next sectors are all free. -/
def sectorsFree (oldest : ℕ) : ℕ → ℕ → Bool
  | 0, cur => getnextSector c cur != oldest
  | cnt + 1, cur => getnextSector c cur != oldest && sectorsFree oldest cnt (getnextSector c cur)

def newSector (s : State) (cnt : ℕ) : Option ℕ :=
  if sectorsFree c s.oldest cnt s.activeSector then some (getnextSector c s.activeSector) else none

def openSector (s : State) (sector : ℕ) : Except Errno State := do
  let f ← sectorHdrInit c s.flash sector (s.activeId + 1)
  return { s with
    flash := f
    activeSector := sector
    active := { s.active with elemOff := lenInFlash c sizeofDiskArea }
    activeId := (s.activeId + 1) % 2 ^ 16 }

def appendToScratch (s : State) : Except Errno State :=
  match newSector c s 0 with
  | none => .error .nospc
  | some sector => openSector c s sector

/-- What `fcb_append` does once there is room in the active sector. -/
def appendElem (s : State) (hdr : List UInt8) (len : ℕ) : Except Errno (State × Entry) :=
  let cnt := lenInFlash c hdr.length
  let bs := hdr ++ List.replicate (cnt - hdr.length) c.eraseValue
  match flashWrite c s.flash s.activeSector s.active.elemOff bs with
  | .error _ => .error .io
  | .ok f =>
    let loc : Elem := ⟨s.active.elemOff, s.active.elemOff + cnt, 0⟩
    .ok ({ s with flash := f, active := { s.active with elemOff := loc.dataOff + len } },
      ⟨some s.activeSector, loc⟩)

def append (s : State) (len : ℕ) : Except Errno (State × Entry) := do
  let hdr ← putLen c len
  let cnt := lenInFlash c hdr.length
  let len := lenInFlash c len + lenInFlash c crcSz
  if s.active.elemOff + len + cnt > c.sectorSize s.activeSector then
    match newSector c s c.scratchCnt with
    | none => .error .nospc
    | some sector =>
      if c.sectorSize sector < lenInFlash c sizeofDiskArea + len + cnt then .error .nospc
      let s ← openSector c s sector
      appendElem c s hdr len
  else appendElem c s hdr len

def appendFinish (s : State) (sector : ℕ) (loc : Elem) : Except Errno State :=
  match elemEndmarker c s.flash sector loc with
  | (.error e, _) => .error e
  | (.ok em, loc) =>
    match flashWrite c s.flash sector (markerOff c loc) (em :: List.replicate (c.align - 1) 0xff) with
    | .error _ => .error .io
    | .ok f => .ok { s with flash := f }

/-- `fcb_rotate`: the sector is erased also when an error follows. -/
def rotate (s : State) : Except Errno Unit × State :=
  let s := { s with flash := eraseSector c s.flash s.oldest }
  if s.oldest = s.activeSector then
    match openSector c s (getnextSector c s.oldest) with
    | .error e => (.error e, s)
    | .ok s' => (.ok (), { s' with oldest := getnextSector c s.oldest })
  else (.ok (), { s with oldest := getnextSector c s.oldest })

end ZephyrRtos.Fcb
