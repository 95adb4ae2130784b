import AuruPm.SdkBlake3

/-!
# The tree of BLAKE3

The hash as BLAKE3 defines it, over the chunks of a whole input, and that the hashers compute it from
any pieces.
-/

namespace AuruPm

set_option autoImplicit false

open Absorb LeftTree

namespace Sdk

namespace Blake3

/-! The definition. -/

/-- A block, with zeros after its bytes. -/
def padded (bytes : List UInt8) : Vector UInt8 64 := Vector.ofFn fun index => (bytes[index.val]?).getD 0

/-- The first block of a chunk has a flag. -/
def startFlag (block : Nat) : UInt32 := if block = 0 then chunkStart else 0

/-- The chaining value before a block of a chunk. -/
def chainTo (counter : UInt64) (chunk : List UInt8) : Nat → ChainingValue
  | 0 => iv
  | i + 1 =>
    firstEight <|
      compress (chainTo counter chunk i) (wordsFromBlock (padded (piece 64 chunk i))) counter 64
        (startFlag i)

/-- The last block of a chunk, which has another flag. -/
def chunkOutput (counter : UInt64) (chunk : List UInt8) : Output :=
  let i := last 64 chunk.length
  ⟨chainTo counter chunk i, wordsFromBlock (padded (piece 64 chunk i)), counter,
    UInt32.ofNat (piece 64 chunk i).length, startFlag i ||| chunkEnd⟩

def nodes : Nodes Output ChainingValue := ⟨Output.chainingValue, parentOutput⟩

/-- A chunk of an input, by its number. -/
def leaf (input : List UInt8) (i : Nat) : Output := chunkOutput (UInt64.ofNat i) (piece 1024 input i)

/-- The root of the tree over all chunks. An empty input is one chunk. -/
def treeHash (input : List UInt8) : Vector UInt8 32 :=
  (subtree nodes (leaf input) 0 (last 1024 input.length + 1)).rootBytes

/-! States of a chunk. -/

/-- The state that a chunk is in once these bytes of it are read. -/
def ChunkState.of (counter : UInt64) (chunk : List UInt8) : ChunkState :=
  let i := last 64 chunk.length
  ⟨chainTo counter chunk i, counter, padded (piece 64 chunk i), (piece 64 chunk i).length, i⟩

theorem getElem_padded (bytes : List UInt8) {i : Nat} (hi : i < 64) :
    (padded bytes)[i] = (bytes[i]?).getD 0 := by
  rw [padded, Vector.getElem_ofFn]

theorem padded_nil : padded [] = Vector.replicate 64 0 := by
  apply Vector.ext
  intro i hi
  rw [getElem_padded, Vector.getElem_replicate]
  rfl

theorem copyInto_padded {bytes input : List UInt8} :
    ChunkState.copyInto (padded bytes) bytes.length input = padded (bytes ++ input) := by
  apply Vector.ext
  intro i hi
  have hold : (padded bytes)[(⟨i, hi⟩ : Fin 64)] = (bytes[i]?).getD 0 := getElem_padded bytes hi
  rw [ChunkState.copyInto, Vector.getElem_ofFn, getElem_padded, hold]
  by_cases hle : bytes.length ≤ i
  · rw [if_pos hle, List.getElem?_append_right hle, List.getElem?_eq_none hle, Option.getD_none]
  · rw [if_neg hle, List.getElem?_append_left (by omega)]

theorem ChunkState.output_of (counter : UInt64) (chunk : List UInt8) :
    (ChunkState.of counter chunk).output = chunkOutput counter chunk := rfl

theorem ChunkState.length_of (counter : UInt64) (chunk : List UInt8) :
    (ChunkState.of counter chunk).length = chunk.length := by
  have hle := last_le 64 chunk.length
  simp only [ChunkState.length, ChunkState.of, piece_last (by omega : 0 < 64), List.length_drop]
  omega

theorem ChunkState.of_nil (counter : UInt64) : ChunkState.of counter [] = .new counter := by
  rw [ChunkState.of, ChunkState.new, ← padded_nil]
  rfl

/-- Later bytes do not change the blocks before. -/
theorem chainTo_append {counter : UInt64} {chunk : List UInt8} {i : Nat} (h : 64 * i ≤ chunk.length)
    (rest : List UInt8) : chainTo counter (chunk ++ rest) i = chainTo counter chunk i := by
  induction i with
  | zero => rfl
  | succ i ih => rw [chainTo, chainTo, ih (by omega), piece_append (by omega)]

/-- The state after more bytes, of which the last block is full at most. -/
theorem ChunkState.of_append {counter : UInt64} {chunk input : List UInt8} {i : Nat}
    (hlast : last 64 (chunk.length + input.length) = i) (h : 64 * i ≤ chunk.length) :
    ChunkState.of counter (chunk ++ input) =
      ⟨chainTo counter chunk i, counter, padded (chunk.drop (64 * i) ++ input),
        (chunk.drop (64 * i)).length + input.length, i⟩ := by
  have hpiece : piece 64 (chunk ++ input) i = chunk.drop (64 * i) ++ input := by
    have heq := piece_last (by omega : 0 < 64) (chunk ++ input)
    rwa [List.length_append, hlast, List.drop_append_of_le_length h] at heq
  rw [ChunkState.of, List.length_append, hlast]
  simp only [chainTo_append h, hpiece, List.length_append]

/-- A block that is not full takes what it has room for. -/
theorem ChunkState.step_fill {value : ChainingValue} {counter : UInt64} {bytes : List UInt8}
    {i : Nat} (h : bytes.length < 64) (input : List UInt8) :
    ChunkState.step ⟨value, counter, padded bytes, bytes.length, i⟩ input =
      some (⟨value, counter, padded (bytes ++ input.take (min (64 - bytes.length) input.length)),
          bytes.length + min (64 - bytes.length) input.length, i⟩,
        input.drop (min (64 - bytes.length) input.length)) := by
  rw [ChunkState.step, if_neg (Nat.ne_of_lt h)]
  simp only [copyInto_padded]

theorem ChunkState.step_full {s : ChunkState} (h : s.blockLen = 64) (input : List UInt8) :
    s.step input = s.compressBlock.step input := by
  rw [ChunkState.step, if_pos h, ChunkState.step, if_neg]
  exact Nat.zero_ne_add_one 63

theorem ChunkState.step_of (counter : UInt64) (chunk input : List UInt8) (hne : input ≠ []) :
    ∃ n, 0 < n ∧ (ChunkState.of counter chunk).step input =
      some (ChunkState.of counter (chunk ++ input.take n), input.drop n) := by
  have hpos : 0 < input.length := List.length_pos_iff.mpr hne
  have hle := last_le 64 chunk.length
  have hroom := sub_last_le (by omega : 0 < 64) chunk.length
  have hlength : (chunk.drop (64 * last 64 chunk.length)).length =
      chunk.length - 64 * last 64 chunk.length := List.length_drop
  have hpiece := piece_last (by omega : 0 < 64) chunk
  by_cases hfull : (chunk.drop (64 * last 64 chunk.length)).length = 64
  · have hchunk : chunk.length = 64 * (last 64 chunk.length + 1) := by omega
    refine ⟨min 64 input.length, by omega, ?_⟩
    have htake : (input.take (min 64 input.length)).length = min 64 input.length := by
      rw [List.length_take]
      omega
    have hlast := last_add_full (n := min 64 input.length) (by omega : 0 < 64)
      (by omega : chunk.length = 64 * last 64 chunk.length + 64) (by omega) (by omega)
    rw [ChunkState.of_append (by rw [htake, hlast]) (by omega), ← hchunk, List.drop_length, htake]
    have hcompress : (ChunkState.of counter chunk).compressBlock =
        ⟨chainTo counter chunk (last 64 chunk.length + 1), counter, padded [], 0,
          last 64 chunk.length + 1⟩ := by
      rw [padded_nil]
      rfl
    have hblock : (ChunkState.of counter chunk).blockLen = 64 := by
      rw [ChunkState.of, hpiece]
      exact hfull
    rw [ChunkState.step_full hblock, hcompress]
    have hempty : ([] : List UInt8).length < 64 := Nat.zero_lt_succ 63
    exact ChunkState.step_fill hempty input
  · have hless : (chunk.drop (64 * last 64 chunk.length)).length < 64 := by omega
    refine ⟨min (64 - (chunk.drop (64 * last 64 chunk.length)).length) input.length, by omega, ?_⟩
    have htake : (input.take (min (64 - (chunk.drop (64 * last 64 chunk.length)).length)
        input.length)).length =
          min (64 - (chunk.drop (64 * last 64 chunk.length)).length) input.length := by
      rw [List.length_take]
      omega
    rw [ChunkState.of_append (by rw [htake, last_add (by omega) (by omega)]) hle, htake,
      ChunkState.of, hpiece]
    exact ChunkState.step_fill hless input

/-- A chunk that is read in any pieces is read as a whole. -/
theorem ChunkState.update_of (counter : UInt64) (chunk input : List UInt8) :
    (ChunkState.of counter chunk).update input = some (ChunkState.of counter (chunk ++ input)) :=
  absorb_eq (fun l input hne _ => ChunkState.step_of counter l input hne) (Nat.le_refl _)
    (Nat.le_refl _)

/-! The stack. -/

theorem and_one_ofNat {n : Nat} (h : n < 2 ^ 64) : UInt64.ofNat n &&& 1 = 0 ↔ n % 2 = 0 := by
  rw [← UInt64.toNat_inj, UInt64.toNat_and, UInt64.toNat_ofNat_of_lt' h]
  have hone : n &&& (1 : UInt64).toNat = n % 2 := Nat.and_one_is_mod n
  rw [hone]
  rfl

theorem shiftRight_ofNat {n : Nat} (h : n < 2 ^ 64) : UInt64.ofNat n >>> 1 = UInt64.ofNat (n / 2) := by
  rw [← UInt64.toNat_inj, UInt64.toNat_shiftRight, UInt64.toNat_ofNat_of_lt' h,
    UInt64.toNat_ofNat_of_lt' (by omega : n / 2 < 2 ^ 64)]
  exact Nat.shiftRight_one n

theorem addChunkChainingValue_odd (limit : Option Nat) (stack : List ChainingValue)
    (value : ChainingValue) {totalChunks : UInt64} (h : totalChunks &&& 1 ≠ 0) :
    addChunkChainingValue limit stack value totalChunks = push limit value stack := by
  cases stack with
  | nil => rw [addChunkChainingValue, if_neg h]
  | cons left stack => rw [addChunkChainingValue, if_neg h]

theorem addChunkChainingValue_even (limit : Option Nat) (left : ChainingValue)
    (stack : List ChainingValue) (value : ChainingValue) {totalChunks : UInt64}
    (h : totalChunks &&& 1 = 0) :
    addChunkChainingValue limit (left :: stack) value totalChunks =
      addChunkChainingValue limit stack (parentOutput left value).chainingValue (totalChunks >>> 1) := by
  rw [addChunkChainingValue, if_pos h]

/-- The stack of the full subtrees grows to the one with another subtree. -/
theorem addChunkChainingValue_frontier {limit : Option Nat} {leaf : Nat → Output} {k m : Nat}
    (htotal : m + 1 < 2 ^ 64)
    (hlimit : limit.all ((frontier nodes leaf k (m + 1)).length ≤ ·)) :
    addChunkChainingValue limit (frontier nodes leaf k m)
        (subtree nodes leaf (m * 2 ^ k) (2 ^ k)).chainingValue (UInt64.ofNat (m + 1)) =
      some (frontier nodes leaf k (m + 1)) := by
  induction m using Nat.strong_induction_on generalizing k with
  | _ m ih =>
    by_cases hodd : m % 2 = 1
    · have heven : UInt64.ofNat (m + 1) &&& 1 = 0 := (and_one_ofNat htotal).mpr (by omega)
      have hhalf : (m + 1) / 2 = m / 2 + 1 := by omega
      rw [frontier_succ_odd hodd] at hlimit ⊢
      rw [frontier_odd hodd]
      rw [addChunkChainingValue_even limit _ _ _ heven, shiftRight_ofNat htotal, hhalf]
      rw [← ih (m / 2) (by omega) (by omega) hlimit, ← subtree_double hodd]
      rfl
    · have hpush : UInt64.ofNat (m + 1) &&& 1 ≠ 0 := by
        intro h
        have hmod := (and_one_ofNat htotal).mp h
        omega
      rw [frontier_succ_even (by omega)] at hlimit ⊢
      rw [addChunkChainingValue_odd _ _ _ hpush, push, if_pos]
      · rfl
      · rw [List.length_cons] at hlimit
        exact hlimit

/-! States of the hasher. -/

/-- The state that a hasher is in once this input is absorbed. -/
def Hasher.of (input : List UInt8) : Hasher :=
  let n := last 1024 input.length
  ⟨.of (UInt64.ofNat n) (piece 1024 input n), frontier nodes (leaf input) 0 n⟩

theorem Hasher.of_nil : Hasher.of [] = .new := by
  have hlast : last 1024 ([] : List UInt8).length = 0 := rfl
  rw [Hasher.of, hlast, frontier_zero]
  exact congrArg (Hasher.mk · []) (ChunkState.of_nil 0)

theorem leaf_append {input : List UInt8} {i : Nat} (h : 1024 * i + 1024 ≤ input.length)
    (rest : List UInt8) : leaf (input ++ rest) i = leaf input i := by
  rw [leaf, leaf, piece_append h]

theorem Hasher.of_append {input rest : List UInt8} {n : Nat}
    (hlast : last 1024 (input.length + rest.length) = n) (h : 1024 * n ≤ input.length) :
    Hasher.of (input ++ rest) =
      ⟨.of (UInt64.ofNat n) (input.drop (1024 * n) ++ rest), frontier nodes (leaf input) 0 n⟩ := by
  have hpiece : piece 1024 (input ++ rest) n = input.drop (1024 * n) ++ rest := by
    have heq := piece_last (by omega : 0 < 1024) (input ++ rest)
    rwa [List.length_append, hlast, List.drop_append_of_le_length h] at heq
  have hfrontier : frontier nodes (leaf (input ++ rest)) 0 n = frontier nodes (leaf input) 0 n := by
    refine frontier_congr fun i hi => leaf_append ?_ rest
    omega
  rw [Hasher.of, List.length_append, hlast]
  simp only [hpiece, hfrontier]

/-- A chunk that is not full takes what it has room for. -/
theorem Hasher.step_fill (limit : Option Nat) {counter : UInt64} {bytes : List UInt8}
    (h : bytes.length < 1024) (stack : List ChainingValue) (input : List UInt8) :
    Hasher.step limit ⟨.of counter bytes, stack⟩ input =
      some (⟨.of counter (bytes ++ input.take (min (1024 - bytes.length) input.length)), stack⟩,
        input.drop (min (1024 - bytes.length) input.length)) := by
  have hcomplete : Hasher.completeChunk limit ⟨.of counter bytes, stack⟩ =
      some ⟨.of counter bytes, stack⟩ := by
    rw [Hasher.completeChunk, if_neg]
    rw [ChunkState.length_of]
    omega
  rw [Hasher.step, hcomplete]
  simp only [Option.bind_eq_bind, Option.bind_some, ChunkState.length_of, ChunkState.update_of]
  rfl

/-- A full chunk becomes a leaf of the tree. -/
theorem Hasher.step_full {limit : Option Nat} {input : List UInt8} {n : Nat}
    (hlast : last 1024 input.length = n) (hfull : input.length = 1024 * n + 1024)
    (htotal : n + 1 < 2 ^ 64)
    (hlimit : limit.all ((frontier nodes (leaf input) 0 (n + 1)).length ≤ ·)) (more : List UInt8) :
    (Hasher.of input).step limit more =
      Hasher.step limit ⟨.of (UInt64.ofNat (n + 1)) [], frontier nodes (leaf input) 0 (n + 1)⟩ more := by
  have hlength : (piece 1024 input n).length = 1024 := by
    rw [length_piece]
    omega
  have hcounter : UInt64.ofNat n + 1 = UInt64.ofNat (n + 1) := (UInt64.ofNat_add n 1).symm
  have hleaf : (ChunkState.of (UInt64.ofNat n) (piece 1024 input n)).output.chainingValue =
      (subtree nodes (leaf input) (n * 2 ^ 0) (2 ^ 0)).chainingValue := by
    rw [ChunkState.output_of, Nat.pow_zero, Nat.mul_one,
      subtree_leaf (Nat.le_refl 1)]
    rfl
  have hcomplete : (Hasher.of input).completeChunk limit =
      some ⟨.of (UInt64.ofNat (n + 1)) [], frontier nodes (leaf input) 0 (n + 1)⟩ := by
    rw [Hasher.completeChunk, Hasher.of, hlast, if_pos]
    · have hadd := addChunkChainingValue_frontier htotal hlimit
      rw [← hleaf] at hadd
      rw [← hcounter] at hadd
      rw [ChunkState.of_nil, ← hcounter]
      exact congrArg (Option.map _) hadd
    · exact (ChunkState.length_of _ _).trans hlength
  have hempty : ([] : List UInt8).length < 1024 := Nat.zero_lt_succ 1023
  rw [Hasher.step_fill limit hempty, Hasher.step, hcomplete]
  simp only [Option.bind_eq_bind, Option.bind_some, ChunkState.length_of, ChunkState.update_of]
  rfl

/-- A step takes some of an input whose length 64 bits hold. -/
theorem Hasher.step_of {limit : Option Nat} (hlimit : limit.all (54 ≤ ·)) (input more : List UInt8)
    (hne : more ≠ []) (hbound : (input ++ more).length ≤ 2 ^ 64 - 1) :
    ∃ n, 0 < n ∧ (Hasher.of input).step limit more =
      some (Hasher.of (input ++ more.take n), more.drop n) := by
  have hpos : 0 < more.length := List.length_pos_iff.mpr hne
  rw [List.length_append] at hbound
  have hle := last_le 1024 input.length
  have hroom := sub_last_le (by omega : 0 < 1024) input.length
  have hlength : (input.drop (1024 * last 1024 input.length)).length =
      input.length - 1024 * last 1024 input.length := List.length_drop
  by_cases hfull : input.length - 1024 * last 1024 input.length = 1024
  · have hchunks : input.length = 1024 * (last 1024 input.length + 1) := by omega
    refine ⟨min 1024 more.length, by omega, ?_⟩
    have htake : (more.take (min 1024 more.length)).length = min 1024 more.length := by
      rw [List.length_take]
      omega
    have hlast := last_add_full (n := min 1024 more.length) (by omega : 0 < 1024)
      (by omega : input.length = 1024 * last 1024 input.length + 1024) (by omega) (by omega)
    -- as many entries as there are binary digits in a number of chunks
    have hentries : (frontier nodes (leaf input) 0 (last 1024 input.length + 1)).length ≤ 54 :=
      length_frontier (by omega)
    have hfits : limit.all ((frontier nodes (leaf input) 0 (last 1024 input.length + 1)).length ≤ ·) := by
      cases limit with
      | none => rfl
      | some size => exact decide_eq_true (Nat.le_trans hentries (of_decide_eq_true hlimit))
    have hempty : ([] : List UInt8).length < 1024 := Nat.zero_lt_succ 1023
    rw [Hasher.step_full rfl (by omega) (by omega) hfits, Hasher.step_fill limit hempty,
      Hasher.of_append (by rw [htake, hlast]) (by omega), ← hchunks, List.drop_length]
    rfl
  · refine ⟨min (1024 - (input.drop (1024 * last 1024 input.length)).length) more.length, by omega, ?_⟩
    have htake : (more.take (min (1024 - (input.drop (1024 * last 1024 input.length)).length)
        more.length)).length =
          min (1024 - (input.drop (1024 * last 1024 input.length)).length) more.length := by
      rw [List.length_take]
      omega
    rw [Hasher.of_append (by rw [htake, last_add (by omega) (by omega)]) hle, Hasher.of,
      piece_last (by omega), Hasher.step_fill limit (by omega)]

theorem Hasher.update_of {limit : Option Nat} (hlimit : limit.all (54 ≤ ·)) {input more : List UInt8}
    (hbound : (input ++ more).length < 2 ^ 64) :
    (Hasher.of input).update limit more = some (Hasher.of (input ++ more)) :=
  absorb_eq (Hasher.step_of hlimit) (Nat.le_refl _) (Nat.le_sub_one_of_lt hbound)

/-- Any pieces leave the hasher in the state of the whole input. -/
theorem Hasher.foldlM_update_of {limit : Option Nat} (hlimit : limit.all (54 ≤ ·))
    {pieces : List (List UInt8)} {input : List UInt8}
    (hbound : (input ++ pieces.flatten).length < 2 ^ 64) :
    pieces.foldlM (Hasher.update limit) (Hasher.of input) =
      some (Hasher.of (input ++ pieces.flatten)) := by
  induction pieces generalizing input with
  | nil => rw [List.foldlM_nil, List.flatten_nil, List.append_nil, Option.pure_def]
  | cons bytes pieces ih =>
    rw [List.flatten_cons, ← List.append_assoc] at hbound ⊢
    have hfirst : (input ++ bytes).length < 2 ^ 64 := by
      rw [List.length_append] at hbound
      omega
    rw [List.foldlM_cons, Hasher.update_of hlimit hfirst, Option.bind_eq_bind, Option.bind_some]
    exact ih hbound

theorem Hasher.finish_of (input : List UInt8) : (Hasher.of input).finish = treeHash input := by
  have hfold : (frontier nodes (leaf input) 0 (last 1024 input.length)).foldl
        (fun right left => nodes.parent left (nodes.value right))
        (subtree nodes (leaf input) (last 1024 input.length * 2 ^ 0) 1) =
      subtree nodes (leaf input) 0 (last 1024 input.length * 2 ^ 0 + 1) :=
    foldl_frontier Nat.one_pos (Nat.le_refl (2 ^ 0))
  rw [Nat.pow_zero, Nat.mul_one, subtree_leaf (Nat.le_refl 1)] at hfold
  exact congrArg Output.rootBytes hfold

/-- Each library hashes an input in any pieces as the tree defines it, on a stack of 54 entries. -/
theorem hashers_treeHash (pieces : List (List UInt8)) (h : pieces.flatten.length < 2 ^ 64) :
    ∃ hasher : Hasher, hasher.finish = treeHash pieces.flatten ∧
      pieces.foldlM Cpp.update .new = some hasher ∧
      pieces.foldlM Java.update .new = some hasher ∧
      pieces.foldlM Swift.update .new = some hasher ∧
      pieces.foldlM (Hasher.update (some 54)) .new = some hasher := by
  have hnil : ([] ++ pieces.flatten : List UInt8).length < 2 ^ 64 := h
  have hfixed := Hasher.foldlM_update_of (rfl : (some 54 : Option Nat).all (54 ≤ ·) = true) hnil
  have hgrows := Hasher.foldlM_update_of (rfl : (none : Option Nat).all (54 ≤ ·) = true) hnil
  rw [Hasher.of_nil, List.nil_append] at hfixed hgrows
  exact ⟨Hasher.of pieces.flatten, Hasher.finish_of _, hfixed, hfixed, hgrows, hfixed⟩

/-- An input with an empty piece. -/
theorem hashers_pieces :
    ∃ hasher : Hasher, hasher.finish = treeHash [1, 2, 3] ∧
      [[1], [], [2, 3]].foldlM Cpp.update .new = some hasher :=
  have h := hashers_treeHash [[1], [], [2, 3]] (by decide)
  h.imp fun _ hall => ⟨hall.1, hall.2.1⟩

end Blake3

end Sdk

end AuruPm
