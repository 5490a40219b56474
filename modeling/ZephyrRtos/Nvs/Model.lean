import ZephyrRtos.Lib.Bytes
import ZephyrRtos.Lib.Cells
import ZephyrRtos.Lib.Logged
import ZephyrRtos.Sys.Crc

/-! `subsys/kvss/nvs/nvs.c`, without the lookup cache: a map from ids to data in the sectors of a
flash device. In a sector the data grows up from its start and the entries grow down from its end.

The loops of the code are bounded by the number of bytes that they can look at. -/

namespace ZephyrRtos.Nvs

open Lib Sys

/-- The geometry, and `CONFIG_NVS_DATA_CRC` with its function. -/
structure Config where
  offset : ℕ
  sectorSize : ℕ
  sectorCount : ℕ
  writeBlockSize : ℕ
  eraseValue : UInt8
  pageSize : ℕ
  deviceSize : ℕ
  dataCrc : Option (List UInt8 → UInt32)

inductive Errno
  | acces | deadlk | inval | io | noent | nospc | nxio | spipe
  deriving DecidableEq

/-- A byte of the flash. The code does not know whether it was written as part of an entry. -/
structure Cell where
  val : UInt8
  entry : Bool

abbrev Flash := Cells Cell

def Flash.bytes (f : Flash) (off len : ℕ) : List UInt8 := (f.slice off len).map Cell.val

structure Fs where
  flash : Flash
  ateWra : ℕ
  dataWra : ℕ
  ready : Bool

inductive FlashAct
  | write (off : ℕ) (bytes : List UInt8) (entry : Bool)
  | flatten (off len : ℕ)

structure FlashOp where
  before : Flash
  after : Flash
  sector : ℕ
  act : FlashAct

abbrev Prog := Logged Fs Errno FlashOp

def addrOffs (addr : ℕ) : ℕ := addr % 2 ^ 16

def addrSect (addr : ℕ) : ℕ := addr - addr % 2 ^ 16

def add32 (a b : ℕ) : ℕ := (a + b) % 2 ^ 32

def sub32 (a b : ℕ) : ℕ := (a + 2 ^ 32 - b) % 2 ^ 32

def le16 (lo hi : UInt8) : ℕ := lo.toNat + 256 * hi.toNat

structure Ate where
  id : ℕ
  offset : ℕ
  len : ℕ
  part : UInt8
  crc8 : UInt8

namespace Ate

def head (a : Ate) : List UInt8 := leBytes 2 a.id ++ leBytes 2 a.offset ++ leBytes 2 a.len ++ [a.part]

def bytes (a : Ate) : List UInt8 := a.head ++ [a.crc8]

def ofBytes (bs : List UInt8) : Ate where
  id := le16 (bs.getD 0 0) (bs.getD 1 0)
  offset := le16 (bs.getD 2 0) (bs.getD 3 0)
  len := le16 (bs.getD 4 0) (bs.getD 5 0)
  part := bs.getD 6 0
  crc8 := bs.getD 7 0

end Ate

def sizeofAte : ℕ := 8

def flashRead (c : Config) (f : Flash) (off len : ℕ) : Except Errno (List UInt8) :=
  if off + len ≤ c.deviceSize then .ok (f.bytes off len) else .error .inval

def flashWrite (c : Config) (off : ℕ) (bs : List UInt8) (entry : Bool) : Prog Unit := fun s =>
  let op := FlashOp.mk s.flash
  if off + bs.length ≤ c.deviceSize then
    let f := s.flash.put off (bs.map (⟨·, entry⟩))
    ⟨.ok (), { s with flash := f }, [op f (s.ateWra / 2 ^ 16) (.write off bs entry)]⟩
  else ⟨.error .inval, s, [op s.flash (s.ateWra / 2 ^ 16) (.write off bs entry)]⟩

def flashFlatten (c : Config) (off len : ℕ) : Prog Unit := fun s =>
  let op := FlashOp.mk s.flash
  if off + len ≤ c.deviceSize then
    let f := s.flash.fill off len ⟨c.eraseValue, false⟩
    ⟨.ok (), { s with flash := f }, [op f (s.ateWra / 2 ^ 16) (.flatten off len)]⟩
  else ⟨.error .inval, s, [op s.flash (s.ateWra / 2 ^ 16) (.flatten off len)]⟩

variable (c : Config)

def nvsBlockSize : ℕ := 32

def alignDown (block x : ℕ) : ℕ := x - (x &&& (block - 1))

def alSize (len : ℕ) : ℕ :=
  if c.writeBlockSize ≤ 1 then len
  else alignDown c.writeBlockSize (len + (c.writeBlockSize - 1))

def ateSize : ℕ := alSize c sizeofAte

def dataCrcSize : ℕ := if c.dataCrc.isSome then 4 else 0

def dataLenWithCrc (len : ℕ) : ℕ := (if len ≠ 0 then len + dataCrcSize c else 0) % 2 ^ 16

def flashOffset (addr : ℕ) : ℕ := c.offset + c.sectorSize * (addr / 2 ^ 16) + addrOffs addr

/-- The streams are written one after another: full blocks directly, and what is less than a block
together with what follows it. -/
def flashAlWrtLoop (entry : Bool) : ℕ → List (List UInt8) → List UInt8 → ℕ → Prog Unit
  | 0, _, _, _ => pure ()
  | _ + 1, [], buf, offset =>
    if buf ≠ [] then
      flashWrite c offset
        (buf ++ List.replicate (c.writeBlockSize - buf.length) c.eraseValue) entry
    else pure ()
  | n + 1, stream :: streams, buf, offset =>
    let fullBytes := alignDown c.writeBlockSize stream.length
    if stream = [] then flashAlWrtLoop entry n streams buf offset
    else if buf = [] ∧ fullBytes > 0 then do
      flashWrite c offset (stream.take fullBytes) entry
      flashAlWrtLoop entry n (stream.drop fullBytes :: streams) [] (offset + fullBytes)
    else
      let copy := min (c.writeBlockSize - buf.length) stream.length
      let buf := buf ++ stream.take copy
      if buf.length = c.writeBlockSize then do
        flashWrite c offset buf entry
        flashAlWrtLoop entry n (stream.drop copy :: streams) [] (offset + c.writeBlockSize)
      else flashAlWrtLoop entry n (stream.drop copy :: streams) buf offset

def flashAlWrtStreams (addr : ℕ) (head data tail : List UInt8) (entry : Bool) : Prog Unit :=
  flashAlWrtLoop c entry (head.length + data.length + tail.length + 4) [head, data, tail] []
    (flashOffset c addr)

def flashAlWrt (addr : ℕ) (data : List UInt8) (entry : Bool) : Prog Unit :=
  flashAlWrtStreams c addr [] data [] entry

def flashRd (f : Flash) (addr len : ℕ) : Except Errno (List UInt8) :=
  flashRead c f (flashOffset c addr) len

def flashAteWrt (entry : Ate) : Prog Unit := do
  let fs ← Logged.get
  Logged.andThen (flashAlWrt c fs.ateWra entry.bytes true)
    fun fs => { fs with ateWra := sub32 fs.ateWra (ateSize c) }

def flashDataAlWrt (head data : List UInt8) (computeCrc : Bool) : Prog Unit := do
  let tail :=
    match c.dataCrc with
    | some crc32 => if computeCrc ∧ data ≠ [] then leBytes 4 (crc32 data).toNat else []
    | none => []
  let fs ← Logged.get
  Logged.andThen (flashAlWrtStreams c fs.dataWra head data tail false) fun fs =>
    { fs with dataWra := add32 fs.dataWra (alSize c (head.length + data.length + tail.length)) }

def flashDataWrt (data : List UInt8) (computeCrc : Bool) : Prog Unit :=
  flashDataAlWrt c [] data computeCrc

def flashAteRd (f : Flash) (addr : ℕ) : Except Errno Ate := do
  return Ate.ofBytes (← flashRd c f addr sizeofAte)

def flashCmp (f : Flash) : ℕ → ℕ → List UInt8 → Except Errno Bool
  | 0, _, _ => return true
  | n + 1, addr, data =>
    if data = [] then return true
    else do
      let bytesToCmp := min (alignDown c.writeBlockSize nvsBlockSize) data.length
      let buf ← flashRd c f addr bytesToCmp
      if buf = data.take bytesToCmp then
        flashCmp f n (add32 addr bytesToCmp) (data.drop bytesToCmp)
      else return false

def flashBlockCmp (f : Flash) (addr : ℕ) (data : List UInt8) : Except Errno Bool :=
  flashCmp c f data.length addr data

def flashCmpConst (f : Flash) (addr : ℕ) (value : UInt8) (len : ℕ) : Except Errno Bool :=
  flashCmp c f len addr (List.replicate len value)

def flashBlockMoveLoop : ℕ → ℕ → ℕ → List UInt8 → Prog (ℕ × List UInt8)
  | 0, addr, _, buffer => return (addr, buffer)
  | n + 1, addr, len, buffer =>
    if len = 0 then return (addr, buffer)
    else do
      let bytesToCopy := min (alignDown c.writeBlockSize nvsBlockSize) len - buffer.length
      let buf ← Logged.reads fun fs => flashRd c fs.flash addr bytesToCopy
      flashDataWrt c (buffer ++ buf) false
      flashBlockMoveLoop n (add32 addr bytesToCopy) (len - (bytesToCopy + buffer.length)) []

/-- The data of an entry is moved to the data write address. What is less than a block stays in the
buffer. -/
def flashBlockMove (addr : ℕ) (buffer : List UInt8) (gcAte : Ate) : Prog (List UInt8 × Ate) := do
  let len := gcAte.len + buffer.length
  let tailLen := len &&& (c.writeBlockSize - 1)
  let fs ← Logged.get
  let gcAte := { gcAte with offset := addrOffs (fs.dataWra + buffer.length) }
  let (addr, buffer) ← flashBlockMoveLoop c len addr (len - tailLen) buffer
  if tailLen ≠ 0 then do
    let buf ← Logged.reads fun fs => flashRd c fs.flash addr (tailLen - buffer.length)
    return (buffer ++ buf, gcAte)
  else return (buffer, gcAte)

def flashEraseSector (addr : ℕ) : Prog Unit := do
  let addr := addrSect addr
  flashFlatten c (c.offset + c.sectorSize * (addr / 2 ^ 16)) c.sectorSize
  let fs ← Logged.get
  if flashCmpConst c fs.flash addr c.eraseValue c.sectorSize = .ok true then pure ()
  else Logged.throw .nxio

def ateCrc8Update (entry : Ate) : Ate := { entry with crc8 := crc8Ccitt 0xff entry.head }

def ateCrc8Check (entry : Ate) : Bool := crc8Ccitt 0xff entry.head = entry.crc8

def ateCmpConst (entry : Ate) (value : UInt8) : Bool := entry.bytes.all (· = value)

def ateValid (entryAddr : ℕ) (entry : Ate) : Bool :=
  ateCrc8Check entry && entry.offset + entry.len ≤ addrOffs entryAddr

def closeAteValid (entry : Ate) : Bool :=
  ateValid (c.sectorSize - ateSize c) entry && entry.len = 0 && entry.id = 0xFFFF &&
    (c.sectorSize - entry.offset) % ateSize c = 0

def flashWrtEntry (id : ℕ) (data : List UInt8) : Prog Unit := do
  let fs ← Logged.get
  let entry := Ate.mk id (addrOffs fs.dataWra) (dataLenWithCrc c data.length) 0xff 0
  flashDataWrt c data true
  flashAteWrt c (ateCrc8Update entry)

def recoverLoop (f : Flash) : ℕ → ℕ → ℕ → ℕ → Except Errno ℕ
  | 0, _, _, addr => return addr
  | n + 1, ateEndAddr, dataEndAddr, addr =>
    if dataEndAddr ≤ ateEndAddr ∧ addrOffs ateEndAddr ≠ 0 then do
      let endAte ← flashAteRd c f ateEndAddr
      if ateValid ateEndAddr endAte then
        recoverLoop f n (sub32 ateEndAddr (ateSize c))
          (addrSect dataEndAddr + endAte.offset + endAte.len) ateEndAddr
      else recoverLoop f n (sub32 ateEndAddr (ateSize c)) dataEndAddr addr
    else return addr

def recoverLastAte (f : Flash) (addr : ℕ) : Except Errno ℕ :=
  let addr := sub32 addr (ateSize c)
  recoverLoop c f (c.sectorSize + 1) addr (addrSect addr) addr

def prevAte (fs : Fs) (addr : ℕ) : Except Errno (Ate × ℕ) := do
  let ate ← flashAteRd c fs.flash addr
  let addr := add32 addr (ateSize c)
  if addrOffs addr ≠ c.sectorSize - ateSize c then return (ate, addr)
  else do
    -- the last entry of the sector, so on to the sector before
    let addr :=
      if addr / 2 ^ 16 = 0 then add32 addr ((c.sectorCount - 1) * 2 ^ 16) else sub32 addr (2 ^ 16)
    let closeAte ← flashAteRd c fs.flash addr
    if ateCmpConst closeAte c.eraseValue then return (ate, fs.ateWra)
    else if closeAteValid c closeAte then return (ate, addrSect addr + closeAte.offset)
    else return (ate, ← recoverLastAte c fs.flash addr)

/-- From `addr` back to the first entry that meets `p`, or to the end: the entry, and the addresses
before and after it is read. -/
def walk (fs : Fs) (p : ℕ → Ate → Bool) : ℕ → ℕ → Except Errno (ℕ × Ate × ℕ)
  | 0, addr => do
    let (ate, next) ← prevAte c fs addr
    return (addr, ate, next)
  | n + 1, addr => do
    let (ate, next) ← prevAte c fs addr
    if p addr ate ∨ next = fs.ateWra then return (addr, ate, next) else walk fs p n next

def walkBound : ℕ := c.sectorCount * c.sectorSize

def matching (id addr : ℕ) (ate : Ate) : Bool := ate.id = id && ateValid addr ate

def sectorAdvance (addr : ℕ) : ℕ :=
  let addr := add32 addr (2 ^ 16)
  if addr / 2 ^ 16 = c.sectorCount then sub32 addr (c.sectorCount * 2 ^ 16) else addr

def sectorClose : Prog Unit := do
  let fs ← Logged.get
  let closeAte := Ate.mk 0xFFFF (addrOffs (fs.ateWra + ateSize c)) 0 0xff 0
  Logged.modify fun fs =>
    { fs with ateWra := addrSect fs.ateWra + (c.sectorSize - ateSize c) }
  -- an error of the flash is not looked at
  fun fs =>
    let out := flashAteWrt c (ateCrc8Update closeAte) fs
    ⟨.ok (), out.state, out.log⟩
  Logged.modify fun fs =>
    let ateWra := sectorAdvance c fs.ateWra
    { fs with ateWra, dataWra := addrSect ateWra }

def addGcDoneAte : Prog Unit := do
  let fs ← Logged.get
  flashAteWrt c (ateCrc8Update (Ate.mk 0xFFFF (addrOffs fs.dataWra) 0 0xff 0))

structure GcWriteEntry where
  id : ℕ
  data : List UInt8

/-- What is left in the buffer is written, with the new entry if there is space for it. -/
def gcFlushAndTryWrite (buffer : List UInt8) (entry : Option GcWriteEntry) : Prog Bool := do
  let flush : Prog Bool := do
    if buffer ≠ [] then flashDataAlWrt c buffer [] false
    return false
  match entry with
  | none => flush
  | some entry => do
    let fs ← Logged.get
    let len := dataLenWithCrc c entry.data.length
    let requiredSpace := ateSize c + alSize c (buffer.length + len)
    if fs.ateWra < fs.dataWra + requiredSpace then flush
    else do
      flashDataAlWrt c buffer entry.data true
      flashAteWrt c
        (ateCrc8Update (Ate.mk entry.id (addrOffs (fs.dataWra + buffer.length)) len 0xff 0))
      return true

def GcWriteEntry.replaces (entry : Option GcWriteEntry) (gcAte : Ate) : Bool :=
  match entry with
  | none => false
  | some entry => entry.id = gcAte.id && dataLenWithCrc c entry.data.length ≤ gcAte.len

/-- An entry of the sector that is collected is moved if it is the newest with its id. -/
def gcMove (entry : Option GcWriteEntry) (gcPrevAddr : ℕ) (gcAte : Ate) (buffer : List UInt8) :
    Prog (List UInt8) := do
  let (wlkPrevAddr, _, _) ← Logged.reads fun fs =>
    walk c fs (matching gcAte.id) (walkBound c) fs.ateWra
  if wlkPrevAddr = gcPrevAddr ∧ gcAte.len ≠ 0 then
    if GcWriteEntry.replaces c entry gcAte then return buffer
    else do
      let dataAddr := addrSect gcPrevAddr + gcAte.offset
      let (buffer, gcAte) ← flashBlockMove c dataAddr buffer gcAte
      flashAteWrt c (ateCrc8Update gcAte)
      return buffer
  else return buffer

def gcLoop (entry : Option GcWriteEntry) (stopAddr : ℕ) :
    ℕ → ℕ → List UInt8 → Prog (List UInt8)
  | 0, _, buffer => return buffer
  | n + 1, gcAddr, buffer => do
    let (gcAte, next) ← Logged.reads fun fs => prevAte c fs gcAddr
    let buffer ← if ateValid gcAddr gcAte then gcMove c entry gcAddr gcAte buffer else pure buffer
    if gcAddr = stopAddr then return buffer else gcLoop entry stopAddr n next buffer

/-- Garbage collection of the sector after the write sector, which has just been started. Returns
whether the new entry was written. -/
def gc (entry : Option GcWriteEntry) : Prog Bool := do
  let fs ← Logged.get
  let secAddr := sectorAdvance c (addrSect fs.ateWra)
  let gcAddr := secAddr + c.sectorSize - ateSize c
  let closeAte ← Logged.reads fun fs => flashAteRd c fs.flash gcAddr
  let isWritten ←
    -- a sector that is not closed is not collected
    if ateCmpConst closeAte c.eraseValue then pure false
    else do
      let stopAddr := gcAddr - ateSize c
      let gcAddr ← Logged.reads fun fs =>
        if closeAteValid c closeAte then .ok (addrSect gcAddr + closeAte.offset)
        else recoverLastAte c fs.flash gcAddr
      let buffer ← gcLoop c entry stopAddr (c.sectorSize + 1) gcAddr []
      gcFlushAndTryWrite c buffer entry
  let fs ← Logged.get
  if fs.ateWra ≥ fs.dataWra + ateSize c then addGcDoneAte c
  flashEraseSector c secAddr
  return isWritten

def blankAte (f : Flash) (addr : ℕ) : Bool :=
  flashCmpConst c f addr c.eraseValue sizeofAte = .ok true

/-- Steps through the sectors to an open one after a closed one: the sector, the number of closed
sectors and the address of the close entry. -/
def scanSectors (f : Flash) : ℕ → ℕ → ℕ → ℕ → ℕ × ℕ × ℕ
  | 0, i, closedSectors, addr => (i, closedSectors, addr)
  | n + 1, i, closedSectors, _ =>
    let addr := i * 2 ^ 16 + addrOffs (c.sectorSize - ateSize c)
    if blankAte c f addr then scanSectors f n (i + 1) closedSectors addr
    else
      let addr := sectorAdvance c addr
      if blankAte c f addr then (i, closedSectors + 1, addr)
      else scanSectors f n (i + 1) (closedSectors + 1) addr

/-- From the last valid entry to the first place where none was written. -/
def lastAteLoop (f : Flash) (addr : ℕ) : ℕ → ℕ → ℕ → Except Errno (ℕ × ℕ)
  | 0, ateWra, dataWra => return (ateWra, dataWra)
  | n + 1, ateWra, dataWra =>
    if dataWra ≤ ateWra then do
      let lastAte ← flashAteRd c f ateWra
      if ateCmpConst lastAte c.eraseValue then return (ateWra, dataWra)
      else if ateValid ateWra lastAte then
        let dataWra := addrSect addr + alSize c (lastAte.offset + lastAte.len)
        -- the last place of a sector is for a delete entry
        if ateWra = dataWra ∧ lastAte.len ≠ 0 then .error .spipe
        else lastAteLoop f addr n (sub32 ateWra (ateSize c)) dataWra
      else lastAteLoop f addr n (sub32 ateWra (ateSize c)) dataWra
    else return (ateWra, dataWra)

def locate (f : Flash) : Except Errno (ℕ × ℕ) :=
  let (i, closedSectors, addr) := scanSectors c f c.sectorCount 0 0 0
  if closedSectors = c.sectorCount then .error .deadlk
  else do
    let addr :=
      if i = c.sectorCount ∧ blankAte c f (sub32 addr (ateSize c)) then sectorAdvance c addr
      else addr
    let addr ← recoverLastAte c f addr
    lastAteLoop c f addr (c.sectorSize + 1) addr (addrSect addr)

def gcDoneMarker (f : Flash) : ℕ → ℕ → Except Errno Bool
  | 0, _ => return false
  | n + 1, addr =>
    if addrOffs addr < c.sectorSize - ateSize c then do
      let ate ← flashAteRd c f addr
      if ateValid addr ate ∧ ate.id = 0xFFFF ∧ ate.len = 0 then return true
      else gcDoneMarker f n (add32 addr (ateSize c))
    else return false

def skipData (f : Flash) (ateWra : ℕ) : ℕ → ℕ → Except Errno ℕ
  | 0, dataWra => return dataWra
  | n + 1, dataWra =>
    if dataWra < ateWra then do
      let blank ← flashCmpConst c f dataWra c.eraseValue (ateWra - dataWra)
      if blank then return dataWra else skipData f ateWra n (dataWra + c.writeBlockSize)
    else return dataWra

def startupGc : Prog Unit := do
  let fs ← Logged.get
  let marker ← Logged.reads fun fs =>
    gcDoneMarker c fs.flash (c.sectorSize + 1) (add32 fs.ateWra (ateSize c))
  if marker then flashEraseSector c (sectorAdvance c (addrSect fs.ateWra))
  else do
    -- without the erase the data might not fit
    flashEraseSector c fs.ateWra
    Logged.modify fun fs =>
      { fs with
        ateWra := addrSect fs.ateWra + (c.sectorSize - 2 * ateSize c)
        dataWra := addrSect fs.ateWra }
    let _ ← gc c none

def startupData : Prog Unit := do
  let fs ← Logged.get
  let dataWra ← Logged.reads fun fs => skipData c fs.flash fs.ateWra (c.sectorSize + 1) fs.dataWra
  Logged.modify fun fs => { fs with dataWra }
  if fs.ateWra + 2 * ateSize c = c.sectorSize ∧ dataWra ≠ addrSect fs.ateWra then do
    flashEraseSector c fs.ateWra
    Logged.modify fun fs => { fs with dataWra := addrSect fs.ateWra }

def startup : Prog Unit := do
  let (ateWra, dataWra) ← Logged.reads fun fs => locate c fs.flash
  Logged.modify fun fs => { fs with ateWra, dataWra }
  let blank ← Logged.reads fun fs =>
    flashCmpConst c fs.flash (sectorAdvance c (addrSect ateWra)) c.eraseValue c.sectorSize
  if blank then startupData c else startupGc c
  -- an empty sector gets a gc done entry, so that there is space for one when it is collected
  let fs ← Logged.get
  if addrOffs fs.ateWra = c.sectorSize - 2 * ateSize c then addGcDoneAte c

def maxSectorSize : ℕ := 2 ^ 16

def mount : Prog Unit := do
  if c.writeBlockSize > nvsBlockSize ∨ c.writeBlockSize = 0 then Logged.throw .inval
  else if c.sectorSize > maxSectorSize then Logged.throw .inval
  else if c.sectorSize = 0 ∨ c.sectorSize % c.pageSize ≠ 0 then Logged.throw .inval
  else if c.sectorCount < 2 then Logged.throw .inval
  else do
    startup c
    Logged.modify fun fs => { fs with ready := true }

/-- Whether there is nothing to write: the newest entry has the same data, or there is nothing to
delete. -/
def unchanged (fs : Fs) (id : ℕ) (data : List UInt8) : Except Errno Bool := do
  let (rdAddr, wlkAte, _) ← walk c fs (matching id) (walkBound c) fs.ateWra
  if matching id rdAddr wlkAte then
    if data = [] then return wlkAte.len = 0
    else if data.length + dataCrcSize c = wlkAte.len then
      flashBlockCmp c fs.flash (addrSect rdAddr + wlkAte.offset) data
    else return false
  else return data = []

/-- Sectors are collected until there is space, each one once. -/
def writeLoop (id : ℕ) (data : List UInt8) (requiredSpace : ℕ) : ℕ → Prog ℕ
  | 0 => Logged.throw .nospc
  | n + 1 => do
    let fs ← Logged.get
    if fs.ateWra ≥ fs.dataWra + requiredSpace ∧ addrOffs fs.ateWra ≠ 0 then do
      flashWrtEntry c id data
      return data.length
    else do
      sectorClose c
      let isWritten ← gc c (some ⟨id, data.take (data.length % 2 ^ 16)⟩)
      if isWritten then return data.length else writeLoop id data requiredSpace n

def write (id : ℕ) (data : List UInt8) : Prog ℕ := do
  let fs ← Logged.get
  if ¬fs.ready then Logged.throw .acces
  else
    let dataSize := alSize c (dataLenWithCrc c data.length)
    if dataSize > sub32 c.sectorSize (4 * ateSize c) then Logged.throw .inval
    else do
      let same ← Logged.reads fun fs => unchanged c fs id data
      if same then return 0
      else
        -- with data, there has to be space for a delete entry too
        let requiredSpace := if dataSize ≠ 0 then (dataSize + ateSize c) % 2 ^ 16 else 0
        writeLoop c id data requiredSpace c.sectorCount

def delete (id : ℕ) : Prog ℕ := write c id []

/-- The walk of `nvs_read_hist`: the address, the entry, the next address and how often the id was
met. -/
def histLoop (fs : Fs) (id cnt : ℕ) : ℕ → ℕ → ℕ → Except Errno (ℕ × Ate × ℕ × ℕ)
  | 0, wlkAddr, cntHis => do
    let (ate, next) ← prevAte c fs wlkAddr
    return (wlkAddr, ate, next, cntHis)
  | n + 1, wlkAddr, cntHis => do
    let (ate, next) ← prevAte c fs wlkAddr
    let cntHis := if matching id wlkAddr ate then cntHis + 1 else cntHis
    if next = fs.ateWra ∨ cnt < cntHis then return (wlkAddr, ate, next, cntHis)
    else histLoop fs id cnt n next cntHis

def readHist (fs : Fs) (id len cnt : ℕ) : Except Errno (ℕ × List UInt8) :=
  if ¬fs.ready then .error .acces
  else if len > sub32 c.sectorSize (2 * ateSize c) then .error .inval
  else do
    let (rdAddr, wlkAte, wlkAddr, cntHis) ← histLoop c fs id cnt (walkBound c) fs.ateWra 0
    if wlkAddr = fs.ateWra ∧ wlkAte.id ≠ id ∨ wlkAte.len = 0 ∨ cntHis < cnt then .error .noent
    else if wlkAte.len < dataCrcSize c then .error .noent
    else do
      let rdAddr := addrSect rdAddr + wlkAte.offset
      let dataLen := wlkAte.len - dataCrcSize c
      let data ← flashRd c fs.flash rdAddr (min len dataLen)
      match c.dataCrc with
      | none => return (dataLen, data)
      | some crc32 =>
        -- only if the whole data has been read
        if dataLen ≤ len then do
          let readDataCrc ← flashRd c fs.flash (add32 rdAddr dataLen) 4
          if readDataCrc ≠ leBytes 4 (crc32 data).toNat then .error .io
          else return (dataLen, data)
        else return (dataLen, data)

def read (fs : Fs) (id len : ℕ) : Except Errno (ℕ × List UInt8) := readHist c fs id len 0

end ZephyrRtos.Nvs
