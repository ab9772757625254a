import Segstore.Kernel.Bytes
import Segstore.Kernel.Reader
import Segstore.Model.Manifest

/-!
# Segment files as bytes

The parser of segment files in `src/lib.rs`: a checkpoint envelope of either
version around the serialized segment, read through a catalog.  `openFile` is
the directory's `open_file`, the check sum of `crc32fast` is any function of the
bytes, and the buffer of the caller is the state of the calls that fill it.
-/

namespace Segstore

/-- `VCKP`. -/
def CHECKPOINT_MAGIC : List UInt8 := [0x56, 0x43, 0x4B, 0x50]

def CHECKPOINT_FORMAT_VERSION_V1 : UInt32 := 1

def CHECKPOINT_FORMAT_VERSION_V2 : UInt32 := 2

def CHECKPOINT_HEADER_BYTES : Nat := 4 + 4 + 8 + 8 + 4

def MAX_CHECKPOINT_PAYLOAD_BYTES : Nat := 268435456

/-- `SegmentPayloadInfo`. -/
structure SegmentPayloadInfo where
  payloadOffset : Nat
  payloadLen : Nat
  payloadCrc32 : UInt32
deriving DecidableEq

/-- `SegmentPayloadInfo::verify_payload`. -/
def SegmentPayloadInfo.verifyPayload (crc32 : List UInt8 → UInt32) (info : SegmentPayloadInfo)
    (payload : List UInt8) : Except PersistenceError Unit :=
  if payload.length ≠ info.payloadLen then
    .error (.format ("segment payload length mismatch: got " ++ toString payload.length ++
      " bytes, expected " ++ toString info.payloadLen))
  else if crc32 payload ≠ info.payloadCrc32 then
    .error (.crcMismatch info.payloadCrc32 (crc32 payload))
  else
    .ok ()

/-- `CheckpointPayloadHeader`. -/
structure CheckpointPayloadHeader where
  version : UInt32
  lastAppliedId : UInt64
  payloadLenU64 : UInt64
  payloadLen : Nat
  checksum : UInt32
deriving DecidableEq

/-- `read_checkpoint_payload_header`. -/
def readCheckpointPayloadHeader : ReadM CheckpointPayloadHeader := do
  let magic ← Reader.readExact unexpectedEof 4
  Eff.reject (magic ≠ CHECKPOINT_MAGIC) (.format "invalid checkpoint magic")
  let versionBytes ← Reader.readExact unexpectedEof 4
  let version := UInt32.ofNat (leValue versionBytes)
  Eff.reject (version ≠ CHECKPOINT_FORMAT_VERSION_V1 ∧ version ≠ CHECKPOINT_FORMAT_VERSION_V2)
    (.format ("checkpoint version mismatch (got " ++ toString version ++ ")"))
  let idBytes ← Reader.readExact unexpectedEof 8
  let lengthBytes ← Reader.readExact unexpectedEof 8
  let payloadLen := leValue lengthBytes
  Eff.reject (USIZE_MAX < payloadLen) (.format "payload_len overflow")
  Eff.reject (MAX_CHECKPOINT_PAYLOAD_BYTES < payloadLen)
    (.format ("checkpoint payload too large: " ++ toString payloadLen ++ " bytes (max " ++
      toString MAX_CHECKPOINT_PAYLOAD_BYTES ++ ")"))
  let checksumBytes ← Reader.readExact unexpectedEof 4
  pure {
    version := version
    lastAppliedId := UInt64.ofNat (leValue idBytes)
    payloadLenU64 := UInt64.ofNat payloadLen
    payloadLen := payloadLen
    checksum := UInt32.ofNat (leValue checksumBytes) }

namespace CheckpointPayloadHeader

variable (crc32 : List UInt8 → UInt32) (header : CheckpointPayloadHeader)

/-- The check sum of a payload under this header, for the versions there are. -/
def actual (payload : List UInt8) : Option UInt32 :=
  if header.version = CHECKPOINT_FORMAT_VERSION_V1 then
    some (crc32 payload)
  else if header.version = CHECKPOINT_FORMAT_VERSION_V2 then
    some (crc32 (CHECKPOINT_MAGIC ++ leBytes 4 header.version.toNat ++
      leBytes 8 header.lastAppliedId.toNat ++ leBytes 8 header.payloadLenU64.toNat ++ payload))
  else
    none

/-- `CheckpointPayloadHeader::verify_payload`, which panics on another version. -/
def verifyPayload {σ : Type} (payload : List UInt8) : Eff PersistenceError σ Unit := do
  Eff.reject (payload.length ≠ header.payloadLen)
    (.format ("checkpoint payload truncated: got " ++ toString payload.length ++ " of " ++
      toString header.payloadLen ++ " bytes"))
  let actual ← Eff.expect (header.actual crc32 payload)
  Eff.reject (actual ≠ header.checksum) (.crcMismatch header.checksum actual)

/-- `CheckpointPayloadHeader::payload_info`. -/
def payloadInfo (payload : List UInt8) : SegmentPayloadInfo where
  payloadOffset := CHECKPOINT_HEADER_BYTES
  payloadLen := header.payloadLen
  payloadCrc32 := crc32 payload

end CheckpointPayloadHeader

/-- Calls on an open file and a buffer. -/
abbrev FillM := Eff PersistenceError (OpenFile × List UInt8)

/-- Read from the file only. -/
def onReader {α : Type} (p : ReadM α) : FillM α :=
  Eff.zoom Prod.fst (fun s f => (f, s.2)) p

variable (crc32 : List UInt8 → UInt32) (openFile : String → Except PersistenceError OpenFile)

/-- `read_checkpoint_payload_into_reader`. -/
def readCheckpointPayloadIntoReader (header : CheckpointPayloadHeader) : FillM Unit := do
  Eff.update (fun s => (s.1, []))
  let n ← Reader.readToEnd header.payloadLen
  Eff.reject (n < header.payloadLen)
    (.format ("checkpoint payload truncated: got " ++ toString n ++ " of " ++
      toString header.payloadLen ++ " bytes"))
  let payload ← Eff.read Prod.snd
  header.verifyPayload crc32 payload

/-- `read_checkpoint_payload_info`. -/
def readCheckpointPayloadInfo {σ : Type} (path : String) :
    Eff PersistenceError σ SegmentPayloadInfo := do
  let f ← Eff.ofExcept (openFile path)
  Eff.within (f, []) do
    let header ← onReader readCheckpointPayloadHeader
    readCheckpointPayloadIntoReader crc32 header
    let payload ← Eff.read Prod.snd
    pure (header.payloadInfo crc32 payload)

/-- `read_checkpoint_payload_into`.  The buffer is cleared when filling it fails. -/
def readCheckpointPayloadInto (path : String) : Eff PersistenceError (List UInt8) Unit := do
  let f ← Eff.ofExcept (openFile path)
  Eff.zoom (fun payload => (f, payload)) (fun _ s => s.2) do
    let header ← onReader readCheckpointPayloadHeader
    match ← Eff.attempt (readCheckpointPayloadIntoReader crc32 header) with
    | .ok () => pure ()
    | .error e => do
        Eff.update (fun s => (s.1, []))
        Eff.fail e

/-- `read_checkpoint_payload`. -/
def readCheckpointPayload {σ : Type} (path : String) : Eff PersistenceError σ (List UInt8) :=
  Eff.within [] do
    readCheckpointPayloadInto crc32 openFile path
    Eff.get

namespace SegmentCatalog

variable {Id σ : Type} (c : SegmentCatalog Id) (id : Nat)

/-- `SegmentCatalog::segment_payload_info`. -/
def segmentPayloadInfo : Eff PersistenceError σ SegmentPayloadInfo := do
  let name ← Eff.ofExcept (c.segmentName id)
  readCheckpointPayloadInfo crc32 openFile name

/-- `SegmentCatalog::read_segment_payload`. -/
def readSegmentPayload : Eff PersistenceError σ (List UInt8) := do
  let name ← Eff.ofExcept (c.segmentName id)
  readCheckpointPayload crc32 openFile name

/-- `SegmentCatalog::read_segment_payload_into`. -/
def readSegmentPayloadInto : Eff PersistenceError (List UInt8) Unit := do
  let name ← Eff.ofExcept (c.segmentName id)
  readCheckpointPayloadInto crc32 openFile name

end SegmentCatalog

end Segstore
