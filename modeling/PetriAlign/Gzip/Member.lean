import PetriAlign.Document
import PetriAlign.Gzip.Crc32
import PetriAlign.Gzip.Inflate

/-!
# Gzip members

A member is a header, compressed data, and a trailer with the checksum and the length of the data.
Only the first member of a file is read. A fault comes after the data that was decoded before it,
except that corrupt data takes with it what was not handed on.
-/

namespace PetriAlign.Gzip

/-- The number that bytes write, the lowest byte first. -/
def littleEndian (bytes : Bytes) : Nat := bytes.foldr (fun b n ↦ b.toNat + 256 * n) 0

/-- The first `n` bytes and the others. -/
def take (n : Nat) (bytes : Bytes) : Except ReadFault (Bytes × Bytes) :=
  if n ≤ bytes.length then .ok (bytes.splitAt n) else .error .unexpectedEnd

/-- What follows the first zero byte. At most 65535 bytes stand before it. -/
def dropText (bytes : Bytes) : Except ReadFault Bytes :=
  if 65535 < (bytes.takeWhile (· ≠ 0)).length then .error .headerTooLong
  else
    match bytes.dropWhile (· ≠ 0) with
    | [] => .error .unexpectedEnd
    | _ :: rest => .ok rest

/-- What follows the extra field, the name and the comment, as far as the flags announce them. -/
def dropOptional (flags : UInt8) (bytes : Bytes) : Except ReadFault Bytes := do
  let bytes ←
    if flags &&& 4 ≠ 0 then do
      let (size, rest) ← take 2 bytes
      let (_, rest) ← take (littleEndian size) rest
      pure rest
    else pure bytes
  let bytes ← if flags &&& 8 ≠ 0 then dropText bytes else pure bytes
  if flags &&& 16 ≠ 0 then dropText bytes else pure bytes

/-- What follows the header. A checksum of the header is checked if there is one. -/
def dropHeader (bytes : Bytes) : Except ReadFault Bytes := do
  let (fixed, rest) ← take 10 bytes
  let flags := fixed.getD 3 0
  if fixed.take 3 ≠ [0x1F, 0x8B, 8] ∨ flags &&& 0xE0 ≠ 0 then throw .invalidGzipHeader
  let rest ← dropOptional flags rest
  if flags &&& 2 ≠ 0 then
    let (checksum, after) ← take 2 rest
    let header := bytes.take (bytes.length - rest.length)
    if littleEndian checksum = (crc32 header).toNat % 65536 then pure after else throw .corruptGzip
  else pure rest

/-- Whether the trailer fits the data. -/
def checkTrailer (output trailer : Bytes) : Except ReadFault Unit := do
  let (checksum, rest) ← take 4 trailer
  let (size, _) ← take 4 rest
  if littleEndian checksum = (crc32 output).toNat ∧
      littleEndian size = output.length % UInt32.size then pure ()
  else throw .corruptGzip

/-- Where a compressed file comes from: it is all at hand, or it is read piece by piece. -/
inductive Source
  | memory
  | file
  deriving DecidableEq, Repr

/-- How many bytes are read before the pieces are counted. An extra field that goes on to the end of
the second piece is read as a whole. -/
def uncounted (bytes : Bytes) : Nat :=
  let extraEnd := 12 + littleEndian ((bytes.drop 10).take 2)
  if bytes.getD 3 0 &&& 4 ≠ 0 ∧ 2 * pieceSize ≤ extraEnd then extraEnd else 0

/-- How many bytes the piece has left in which a header of `size` bytes ends. -/
def Source.pieceAfter (source : Source) (bytes : Bytes) (size : Nat) : Nat :=
  match source with
  | memory => bytes.length - size
  | file => pieceSize - (size - uncounted bytes) % pieceSize

/-- The decoded file. -/
def decompress (source : Source) (d : Document) : Document :=
  match dropHeader d.bytes with
  | .error fault => { bytes := [], fault := some (d.fault.getD fault) }
  | .ok compressed =>
    let size := d.bytes.length - compressed.length
    let inflated := inflate (source.pieceAfter d.bytes size) compressed
    match inflated.rest with
    | .error .incomplete =>
      { bytes := inflated.output, fault := some (d.fault.getD .incompleteDeflate) }
    | .error .corrupt =>
      { bytes := inflated.output.take inflated.delivered, fault := some .corruptDeflate }
    | .ok trailer =>
      match checkTrailer inflated.output trailer with
      | .error fault => { bytes := inflated.output, fault := some fault }
      | .ok () => { bytes := inflated.output }

end PetriAlign.Gzip
