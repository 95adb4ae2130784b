import AuruPm.Lib.Absorb
import AuruPm.Lib.LeftTree

/-!
# BLAKE3 in the client libraries

The hashers of `blake3.cpp`, `Blake3.java` and `Blake3.swift`. They are the same but for the stack of
chaining values, an array of 54 in C++ and Java and one that grows in Swift.
-/

namespace AuruPm

set_option autoImplicit false

open Absorb LeftTree

namespace Sdk

namespace Blake3

/-! The compression function. -/

abbrev ChainingValue := Vector UInt32 8

abbrev BlockWords := Vector UInt32 16

def chunkStart : UInt32 := 1

def chunkEnd : UInt32 := 2

def parent : UInt32 := 4

def root : UInt32 := 8

def iv : ChainingValue :=
  #v[0x6a09e667, 0xbb67ae85, 0x3c6ef372, 0xa54ff53a, 0x510e527f, 0x9b05688c, 0x1f83d9ab, 0x5be0cd19]

def msgPermutation : Vector (Fin 16) 16 := #v[2, 6, 3, 10, 7, 0, 4, 13, 1, 11, 12, 5, 9, 14, 15, 8]

def rotateRight (value bits : UInt32) : UInt32 := (value >>> bits) ||| (value <<< (32 - bits))

def g (state : BlockWords) (a b c d : Fin 16) (mx my : UInt32) : BlockWords :=
  let state := state.set a (state[a] + state[b] + mx)
  let state := state.set d (rotateRight (state[d] ^^^ state[a]) 16)
  let state := state.set c (state[c] + state[d])
  let state := state.set b (rotateRight (state[b] ^^^ state[c]) 12)
  let state := state.set a (state[a] + state[b] + my)
  let state := state.set d (rotateRight (state[d] ^^^ state[a]) 8)
  let state := state.set c (state[c] + state[d])
  state.set b (rotateRight (state[b] ^^^ state[c]) 7)

def round (state m : BlockWords) : BlockWords :=
  let state := g state 0 4 8 12 m[0] m[1]
  let state := g state 1 5 9 13 m[2] m[3]
  let state := g state 2 6 10 14 m[4] m[5]
  let state := g state 3 7 11 15 m[6] m[7]
  let state := g state 0 5 10 15 m[8] m[9]
  let state := g state 1 6 11 12 m[10] m[11]
  let state := g state 2 7 8 13 m[12] m[13]
  g state 3 4 9 14 m[14] m[15]

def permute (m : BlockWords) : BlockWords := Vector.ofFn fun index => m[msgPermutation[index]]

def rounds : Nat → BlockWords → BlockWords → BlockWords
  | 0, state, _ => state
  | n + 1, state, block => rounds n (round state block) (permute block)

def compress (chainingValue : ChainingValue) (blockWords : BlockWords) (counter : UInt64)
    (blockLen flags : UInt32) : BlockWords :=
  let state := chainingValue ++ #v[iv[0], iv[1], iv[2], iv[3], counter.toUInt32,
    (counter >>> 32).toUInt32, blockLen, flags]
  let state := rounds 7 state blockWords
  Vector.ofFn fun index =>
    if h : index.val < 8 then state[index] ^^^ state[index.val + 8]
    else state[index] ^^^ chainingValue[index.val - 8]

/-- The chaining value of a compression. -/
def firstEight (words : BlockWords) : ChainingValue := Vector.ofFn fun index => words[index.val]

/-- Little-endian words. -/
def wordsFromBlock (block : Vector UInt8 64) : BlockWords :=
  Vector.ofFn fun index =>
    block[index.val * 4].toUInt32 ||| block[index.val * 4 + 1].toUInt32 <<< 8 |||
      block[index.val * 4 + 2].toUInt32 <<< 16 ||| block[index.val * 4 + 3].toUInt32 <<< 24

/-- The inputs of a node's compression. -/
structure Output where
  inputChainingValue : ChainingValue
  blockWords : BlockWords
  counter : UInt64
  blockLen : UInt32
  flags : UInt32

def Output.chainingValue (output : Output) : ChainingValue :=
  firstEight <|
    compress output.inputChainingValue output.blockWords output.counter output.blockLen output.flags

def Output.rootBytes (output : Output) : Vector UInt8 32 :=
  let words :=
    compress output.inputChainingValue output.blockWords 0 output.blockLen (output.flags ||| root)
  Vector.ofFn fun index => (words[index.val / 4] >>> UInt32.ofNat (8 * (index.val % 4))).toUInt8

def parentOutput (left right : ChainingValue) : Output := ⟨iv, left ++ right, 0, 64, parent⟩

/-! A chunk. -/

structure ChunkState where
  chainingValue : ChainingValue
  chunkCounter : UInt64
  block : Vector UInt8 64
  blockLen : Nat
  blocksCompressed : Nat

namespace ChunkState

def new (counter : UInt64) : ChunkState := ⟨iv, counter, Vector.replicate 64 0, 0, 0⟩

def length (s : ChunkState) : Nat := 64 * s.blocksCompressed + s.blockLen

def startFlag (s : ChunkState) : UInt32 := if s.blocksCompressed = 0 then chunkStart else 0

/-- Empties a full block. -/
def compressBlock (s : ChunkState) : ChunkState where
  chainingValue :=
    firstEight (compress s.chainingValue (wordsFromBlock s.block) s.chunkCounter 64 s.startFlag)
  chunkCounter := s.chunkCounter
  block := Vector.replicate 64 0
  blockLen := 0
  blocksCompressed := s.blocksCompressed + 1

/-- `memcpy` to a place in the block. -/
def copyInto (block : Vector UInt8 64) (offset : Nat) (input : List UInt8) : Vector UInt8 64 :=
  Vector.ofFn fun index =>
    if offset ≤ index.val then (input[index.val - offset]?).getD block[index] else block[index]

/-- A full block is compressed before it takes more, since the last one of a chunk has its own flag. -/
def step (s : ChunkState) (input : List UInt8) : Option (ChunkState × List UInt8) :=
  let s := if s.blockLen = 64 then s.compressBlock else s
  let take := min (64 - s.blockLen) input.length
  let block := copyInto s.block s.blockLen (input.take take)
  some ({ s with block := block, blockLen := s.blockLen + take }, input.drop take)

def update (s : ChunkState) (input : List UInt8) : Option ChunkState := absorb step input.length s input

def output (s : ChunkState) : Output :=
  ⟨s.chainingValue, wordsFromBlock s.block, s.chunkCounter, UInt32.ofNat s.blockLen,
    s.startFlag ||| chunkEnd⟩

end ChunkState

/-! The hasher. -/

/-- The chunk that is read, and the stack from its top on. -/
structure Hasher where
  chunkState : ChunkState
  cvStack : List ChainingValue

/-- A stack with a limit has no room above it. -/
def push (limit : Option Nat) (value : ChainingValue) (stack : List ChainingValue) :
    Option (List ChainingValue) :=
  if limit.all (stack.length < ·) then some (value :: stack) else none

/-- Joins as many subtrees as the count has trailing zeros. An empty stack fails. -/
def addChunkChainingValue (limit : Option Nat) :
    List ChainingValue → ChainingValue → UInt64 → Option (List ChainingValue)
  | [], value, totalChunks => if totalChunks &&& 1 = 0 then none else push limit value []
  | left :: stack, value, totalChunks =>
    if totalChunks &&& 1 = 0 then
      addChunkChainingValue limit stack (parentOutput left value).chainingValue (totalChunks >>> 1)
    else push limit value (left :: stack)

namespace Hasher

def new : Hasher := ⟨.new 0, []⟩

/-- A full chunk joins the tree before the next one begins. -/
def completeChunk (limit : Option Nat) (h : Hasher) : Option Hasher :=
  if h.chunkState.length = 1024 then
    let totalChunks := h.chunkState.chunkCounter + 1
    (addChunkChainingValue limit h.cvStack h.chunkState.output.chainingValue totalChunks).map
      fun stack => ⟨.new totalChunks, stack⟩
  else some h

def step (limit : Option Nat) (h : Hasher) (input : List UInt8) : Option (Hasher × List UInt8) := do
  let h ← completeChunk limit h
  let take := min (1024 - h.chunkState.length) input.length
  let chunkState ← h.chunkState.update (input.take take)
  return (⟨chunkState, h.cvStack⟩, input.drop take)

def update (limit : Option Nat) (h : Hasher) (input : List UInt8) : Option Hasher :=
  absorb (step limit) input.length h input

def finish (h : Hasher) : Vector UInt8 32 :=
  (h.cvStack.foldl (fun output left => parentOutput left output.chainingValue)
    h.chunkState.output).rootBytes

end Hasher

end Blake3

def Cpp.update : Blake3.Hasher → List UInt8 → Option Blake3.Hasher := Blake3.Hasher.update (some 54)

def Java.update : Blake3.Hasher → List UInt8 → Option Blake3.Hasher := Blake3.Hasher.update (some 54)

def Swift.update : Blake3.Hasher → List UInt8 → Option Blake3.Hasher := Blake3.Hasher.update none

end Sdk

end AuruPm
