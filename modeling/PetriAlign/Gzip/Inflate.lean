import PetriAlign.Gzip.Delivery
import PetriAlign.Text.Utf8

/-!
# Inflate

Reads compressed data: blocks of plain bytes, and blocks of literals and copies under prefix codes
that are fixed or come with the block. What was written before a fault is kept.
-/

namespace PetriAlign.Gzip

inductive InflateFault
  /-- The data ends inside a block. -/
  | incomplete
  | corrupt
  deriving DecidableEq, Repr

/-- The bits that are not read, each byte from its lowest bit on, and the bytes that are written. -/
structure Progress where
  bits : List Bool
  output : Array UInt8 := #[]
  delivery : Delivery

abbrev Inflate := ExceptT InflateFault (StateM Progress)

def bitsOf (b : UInt8) : List Bool := (List.range 8).map fun i ↦ b.toNat.testBit i

namespace Inflate

def corrupt {α : Type} : Inflate α := throw .corrupt

def bit : Inflate Bool := do
  match (← get).bits with
  | [] => throw .incomplete
  | b :: rest =>
    modify fun p ↦
      { p with bits := rest, delivery := p.delivery.beforeBit p.output.size (b :: rest) }
    return b

/-- A number of `n` bits, the lowest first. -/
def number : Nat → Inflate Nat
  | 0 => return 0
  | n + 1 => do
    let low ← bit
    let high ← number n
    return (if low then 1 else 0) + 2 * high

/-- Makes room for a byte. -/
def makeRoom : Inflate Unit :=
  modify fun p ↦ { p with delivery := p.delivery.beforeByte p.output.size }

def emit (b : UInt8) : Inflate Unit := do
  makeRoom
  modify fun p ↦ { p with output := p.output.push b }

/-- Drops the bits up to the next byte. -/
def align : Inflate Unit := modify fun p ↦
  let dropped := p.bits.length % 8
  { p with
    bits := p.bits.drop dropped
    delivery := { p.delivery with piece := p.delivery.piece - dropped } }

/-- A canonical prefix code: how many codes there are of each length from one to the greatest, and
the symbols in the order of their codes. -/
structure PrefixCode where
  counts : List Nat
  symbols : Array Nat

/-- The symbols of code length `length`. -/
def symbolsOfLength (lengths : List Nat) (length : Nat) : List Nat :=
  (lengths.zipIdx.filter (·.1 = length)).map (·.2)

/-- The number of codes of length fifteen that the codes take up. -/
def codeSpace (counts : List Nat) : Nat :=
  counts.foldl (fun space count ↦ 2 * space + count) 0

/-- The code in which symbol `i` has a code of the `i`-th length, or none if that is zero. Codes may
only be left unused in a `sparse` code, which has no symbol or one whose code is a single bit. -/
def PrefixCode.ofLengths (sparse : Bool) (lengths : List Nat) : Inflate PrefixCode :=
  let symbols := (List.range 15).map fun i ↦ symbolsOfLength lengths (i + 1)
  let counts := symbols.map List.length
  let used := (counts.reverse.dropWhile (· = 0)).reverse
  if codeSpace counts = 32768 ∨ sparse ∧ (used = [] ∨ used = [1]) then
    return ⟨if used = [] then [0] else used, symbols.flatten.toArray⟩
  else corrupt

/-- Reads a code bit by bit, and refuses it where no code begins with its bits. The codes of the
present length begin at `first`, and their symbols at `index`. -/
def symbolFrom (symbols : Array Nat) (code first index : Nat) : List Nat → Inflate Nat
  | [] => corrupt
  | count :: rest => do
    let code := 2 * code + if ← bit then 1 else 0
    let first := 2 * first
    if code < first + count then
      match symbols[index + (code - first)]? with
      | some s => return s
      | none => corrupt
    else symbolFrom symbols code (first + count) (index + count) rest

def symbol (c : PrefixCode) : Inflate Nat := symbolFrom c.symbols 0 0 0 c.counts

/-- The shortest copy of each length symbol from 257 on, and the number of extra bits. -/
def lengthBases : List (Nat × Nat) :=
  [(3, 0), (4, 0), (5, 0), (6, 0), (7, 0), (8, 0), (9, 0), (10, 0), (11, 1), (13, 1), (15, 1),
    (17, 1), (19, 2), (23, 2), (27, 2), (31, 2), (35, 3), (43, 3), (51, 3), (59, 3), (67, 4),
    (83, 4), (99, 4), (115, 4), (131, 5), (163, 5), (195, 5), (227, 5), (258, 0)]

/-- The shortest distance of each distance symbol, and the number of extra bits. -/
def distanceBases : List (Nat × Nat) :=
  [(1, 0), (2, 0), (3, 0), (4, 0), (5, 1), (7, 1), (9, 2), (13, 2), (17, 3), (25, 3), (33, 4),
    (49, 4), (65, 5), (97, 5), (129, 6), (193, 6), (257, 7), (385, 7), (513, 8), (769, 8),
    (1025, 9), (1537, 9), (2049, 10), (3073, 10), (4097, 11), (6145, 11), (8193, 12), (12289, 12),
    (16385, 13), (24577, 13)]

/-- The value of a symbol with extra bits. -/
def extended (bases : List (Nat × Nat)) (i : Nat) : Inflate Nat := do
  match bases[i]? with
  | some (base, bits) => return base + (← number bits)
  | none => corrupt

/-- Writes again what was written `distance` bytes ago. Before the first byte there are zeros. -/
def copy (distance : Nat) : Nat → Inflate Unit
  | 0 => return ()
  | n + 1 => do
    let output := (← get).output
    emit (if distance ≤ output.size then output.getD (output.size - distance) 0 else 0)
    copy distance n

/-- Literals and copies up to the end of the block. Each takes at least one bit, so there is fuel
for all of them. -/
def symbols (literals distances : PrefixCode) : Nat → Inflate Unit
  | 0 => throw .incomplete
  | fuel + 1 => do
    let s ← symbol literals
    if s < 256 then
      emit (.ofNat s)
      symbols literals distances fuel
    else if s = 256 then return ()
    else
      let length ← extended lengthBases (s - 257)
      let distance ← extended distanceBases (← symbol distances)
      copy distance length
      symbols literals distances fuel

/-- The rest of a block under the given codes. -/
def compressed (literals distances : PrefixCode) : Inflate Unit := do
  symbols literals distances ((← get).bits.length + 1)

/-- Bytes as they stand. Room is made for each before it is read. -/
def plainBytes : Nat → Inflate Unit
  | 0 => return ()
  | n + 1 => do
    makeRoom
    emit (.ofNat (← number 8))
    plainBytes n

/-- A block of plain bytes: their number, the complement of it, and the bytes. -/
def stored : Inflate Unit := do
  align
  let length ← number 16
  let complement ← number 16
  if length + complement ≠ 0xFFFF then corrupt else plainBytes length

def fixedLiterals : List Nat :=
  List.replicate 144 8 ++ List.replicate 112 9 ++ List.replicate 24 7 ++ List.replicate 8 8

def fixed : Inflate Unit := do
  compressed (← PrefixCode.ofLengths false fixedLiterals)
    (← PrefixCode.ofLengths false (List.replicate 32 5))

/-- The symbols whose code lengths come first, in the order in which they come. -/
def lengthOrder : List Nat := [16, 17, 18, 0, 8, 7, 9, 6, 10, 5, 11, 4, 12, 3, 13, 2, 14, 1, 15]

/-- The code lengths of `missing` more symbols; those in `read` are reversed. Each step adds one
at least, so there is fuel for all of them. -/
def codeLengths (code : PrefixCode) (read : List Nat) (missing : Nat) : Nat → Inflate (List Nat)
  | 0 => return read.reverse
  | fuel + 1 => do
    if missing = 0 then return read.reverse
    let s ← symbol code
    if s < 16 then codeLengths code (s :: read) (missing - 1) fuel
    else
      let (length, least, bits) ←
        match s, read with
        | 16, last :: _ => pure (last, 3, 2)
        | 17, _ => pure (0, 3, 3)
        | 18, _ => pure (0, 11, 7)
        | _, _ => corrupt
      let repeated := least + (← number bits)
      if missing < repeated then corrupt
      else codeLengths code (List.replicate repeated length ++ read) (missing - repeated) fuel

/-- A block that begins with its codes. -/
def dynamic : Inflate Unit := do
  let literals := (← number 5) + 257
  let distances := (← number 5) + 1
  let given := (← number 4) + 4
  if 286 < literals ∨ 30 < distances then corrupt
  else
    let first ← (lengthOrder.take given).mapM fun s ↦ do return (s, ← number 3)
    let code ← PrefixCode.ofLengths false ((List.range 19).map fun s ↦ (first.lookup s).getD 0)
    let lengths ← codeLengths code [] (literals + distances) (literals + distances)
    compressed (← PrefixCode.ofLengths true (lengths.take literals))
      (← PrefixCode.ofLengths true (lengths.drop literals))

/-- The blocks up to the last one. Each takes at least three bits, so there is fuel for all of
them. -/
def blocks : Nat → Inflate Unit
  | 0 => throw .incomplete
  | fuel + 1 => do
    let last ← bit
    match ← number 2 with
    | 0 => stored
    | 1 => fixed
    | 2 => dynamic
    | _ => corrupt
    if last then return () else blocks fuel

end Inflate

/-- What inflating gives: the bytes that were written, and either the fault that ended it or what
follows the data, from the next byte on. -/
structure Inflated where
  output : Bytes
  /-- How many bytes were handed on before decoding ended. -/
  delivered : Nat
  rest : Except InflateFault Bytes

/-- Inflates bytes, `piece` of which make the first piece. -/
def inflate (piece : Nat) (bytes : Bytes) : Inflated :=
  let bits := bytes.flatMap bitsOf
  let delivery : Delivery := { piece := 8 * min piece bytes.length }
  let (result, progress) :=
    (Inflate.blocks (bits.length + 1)).run.run { bits := bits, delivery := delivery }
  { output := progress.output.toList
    delivered := progress.delivery.delivered
    rest := result.map fun _ ↦ bytes.drop (bytes.length - progress.bits.length / 8) }

end PetriAlign.Gzip
