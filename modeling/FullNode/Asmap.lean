import FullNode.Basic
import Mathlib.Data.Nat.Log

/-!
# Maps from addresses to autonomous systems

An asmap is a program in bits. Positions are offsets in bits.
-/

namespace FullNode.Asmap

def INVALID : Nat := 0xFFFFFFFF

/-- `v[pos]`, or `*pos`. -/
def bitAt (v : List Bool) (pos : Nat) : Checked Bool :=
  match v[pos]? with
  | some bit => .ok bit
  | none => .error .badIterator

variable (asmap : List Bool)

/-! ## Numbers -/

/-- The mantissa: `size` bits, the highest first. -/
def decodeMantissa : Nat → Nat → Nat → Checked (Nat × Nat)
  | 0, pos, val => .ok (val, pos)
  | size + 1, pos, val =>
    if pos = asmap.length then .ok (INVALID, pos)
    else do
      let bit ← bitAt asmap pos
      decodeMantissa size (pos + 1) (val + bit.toNat <<< size)

def decodeBits : List Nat → Nat → Nat → Checked (Nat × Nat)
  | [], pos, _ => .ok (INVALID, pos)
  | [size], pos, val => decodeMantissa asmap size pos val
  | size :: size' :: sizes, pos, val =>
    if pos = asmap.length then .ok (INVALID, pos)
    else do
      let bit ← bitAt asmap pos
      if bit then decodeBits (size' :: sizes) (pos + 1) (val + 1 <<< size)
      else decodeMantissa asmap size (pos + 1) val

inductive Instruction where
  | return_
  | jump
  | match_
  | default_
  /-- Not an instruction. -/
  | invalid
  deriving DecidableEq

def Instruction.ofVal : Nat → Instruction
  | 0 => .return_
  | 1 => .jump
  | 2 => .match_
  | 3 => .default_
  | _ => .invalid

def TYPE_BIT_SIZES : List Nat := [0, 0, 1]
def ASN_BIT_SIZES : List Nat := [15, 16, 17, 18, 19, 20, 21, 22, 23, 24]
def MATCH_BIT_SIZES : List Nat := [1, 2, 3, 4, 5, 6, 7, 8]
def JUMP_BIT_SIZES : List Nat :=
  [5, 6, 7, 8, 9, 10, 11, 12, 13, 14, 15, 16, 17, 18, 19, 20, 21, 22, 23, 24, 25, 26, 27, 28, 29, 30]

def decodeType (pos : Nat) : Checked (Instruction × Nat) := do
  let (val, pos) ← decodeBits asmap TYPE_BIT_SIZES pos 0
  return (.ofVal val, pos)

def decodeASN (pos : Nat) : Checked (Nat × Nat) := decodeBits asmap ASN_BIT_SIZES pos 1
def decodeMatch (pos : Nat) : Checked (Nat × Nat) := decodeBits asmap MATCH_BIT_SIZES pos 2
def decodeJump (pos : Nat) : Checked (Nat × Nat) := decodeBits asmap JUMP_BIT_SIZES pos 17

/-! ## `Interpret` -/

variable (ip : List Bool)

/-- The bits of a match, the highest first: the rest, if it agrees. -/
def matchBits (m : Nat) : Nat → Nat → Checked (Option Nat)
  | 0, bits => .ok (some bits)
  | matchlen + 1, bits => do
    let bit ← bitAt ip (ip.length - bits)
    if bit ≠ m.testBit matchlen then return none else matchBits m matchlen (bits - 1)

/-- `pos += jump`. -/
def advance (pos jump : Nat) : Checked Nat :=
  if pos + jump ≤ asmap.length then .ok (pos + jump) else .error .badIterator

def interpretLoop : Nat → Nat → Nat → Nat → Checked Nat
  | 0, _, _, _ => .error .endless
  | fuel + 1, pos, bits, defaultAsn =>
    if pos = asmap.length then .error .assertion
    else do
      let (opcode, pos) ← decodeType asmap pos
      match opcode with
      | .return_ =>
        let (asn, _) ← decodeASN asmap pos
        if asn = INVALID then .error .assertion else .ok asn
      | .jump =>
        let (jump, pos) ← decodeJump asmap pos
        if jump = INVALID then .error .assertion
        else if bits = 0 then .error .assertion
        else if jump ≥ asmap.length - pos then .error .assertion
        else
          let bit ← bitAt ip (ip.length - bits)
          let pos ← if bit then advance asmap pos jump else .ok pos
          interpretLoop fuel pos (bits - 1) defaultAsn
      | .match_ =>
        let (m, pos) ← decodeMatch asmap pos
        if m = INVALID then .error .assertion
        else
          let matchlen := Nat.log2 m
          if bits < matchlen then .error .assertion
          else
            match ← matchBits ip m matchlen bits with
            | none => .ok defaultAsn
            | some bits => interpretLoop fuel pos bits defaultAsn
      | .default_ =>
        let (asn, pos) ← decodeASN asmap pos
        if asn = INVALID then .error .assertion else interpretLoop fuel pos bits asn
      | .invalid => .error .assertion

/-- The bits left of the address are an `uint8_t`. -/
def interpret : Checked Nat := interpretLoop asmap ip (asmap.length + 1) 0 (ip.length % 2 ^ 8) 0

/-! ## `SanityCheckASMap` -/

structure Scan where
  pos : Nat
  bits : Nat
  /-- The jumps still to come, the nearest first, with their bits. -/
  jumps : List (Nat × Nat) := []
  prevopcode : Instruction := .jump
  hadIncompleteMatch : Bool := false

/-- An offset as an `uint32_t`. -/
def offset (pos : Nat) : Nat := pos % 2 ^ 32

def sanePadding (pos : Nat) : Bool := asmap.length - pos ≤ 7 && (asmap.drop pos).all (!·)

def sanityStep (s : Scan) : Checked (Scan ⊕ Bool) := do
  if s.jumps.head?.any fun jump => offset s.pos ≥ jump.1 then return .inr false
  let (opcode, pos) ← decodeType asmap s.pos
  match opcode with
  | .return_ =>
    if s.prevopcode = .default_ then return .inr false
    let (asn, pos) ← decodeASN asmap pos
    if asn = INVALID then return .inr false
    match s.jumps with
    | [] => return .inr (sanePadding asmap pos)
    | jump :: jumps =>
      if offset pos ≠ jump.1 then return .inr false
      return .inl { s with pos, bits := jump.2, jumps, prevopcode := .jump }
  | .jump =>
    let (jump, pos) ← decodeJump asmap pos
    if jump = INVALID then return .inr false
    if jump > asmap.length - pos then return .inr false
    if s.bits = 0 then return .inr false
    if s.jumps.head?.any fun last => offset (pos + jump) ≥ last.1 then return .inr false
    return .inl { s with
      pos, bits := s.bits - 1, jumps := (offset (pos + jump), s.bits - 1) :: s.jumps, prevopcode := .jump }
  | .match_ =>
    let (m, pos) ← decodeMatch asmap pos
    if m = INVALID then return .inr false
    let matchlen := Nat.log2 m
    let hadIncompleteMatch := if s.prevopcode ≠ .match_ then false else s.hadIncompleteMatch
    if matchlen < 8 ∧ hadIncompleteMatch then return .inr false
    if s.bits < matchlen then return .inr false
    return .inl { s with pos, bits := s.bits - matchlen, prevopcode := .match_, hadIncompleteMatch := matchlen < 8 }
  | .default_ =>
    if s.prevopcode = .default_ then return .inr false
    let (asn, pos) ← decodeASN asmap pos
    if asn = INVALID then return .inr false
    return .inl { s with pos, prevopcode := .default_ }
  | .invalid => return .inr false

def sanityLoop : Nat → Scan → Checked Bool
  | 0, _ => .error .endless
  | fuel + 1, s =>
    if s.pos = asmap.length then .ok false
    else do
      match ← sanityStep asmap s with
      | .inl s => sanityLoop fuel s
      | .inr sane => return sane

/-- `bits` is the length of the addresses. -/
def sanityCheckASMap (bits : Nat) : Checked Bool := sanityLoop asmap (asmap.length + 1) { pos := 0, bits }

end FullNode.Asmap
