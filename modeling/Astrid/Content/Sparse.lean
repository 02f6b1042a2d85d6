import Astrid.Content.Exact

/-!
# A file that is built and cannot be read

The reader bounds a subtree by its chunk count times the maximum chunk size, in 64 bits,
while the builder only counts bytes. A profile with small minimum and large maximum sizes
tells them apart on zeros: a seed that cancels the gear value of zero makes every position
a cut, so chunks are of the minimum size (`fileChunks_zeros`), and `2 ^ 43` of them need a
tree whose full subtrees no longer fit (`not_readable_zeros`).

Nothing here is evaluated on the file itself, which has `2 ^ 49` bytes.
-/

namespace Astrid.Content

open Std List

/-- The largest ratio of maximum and minimum size, seeded with the gear value of zero. -/
def sparse : ChunkingProfile where
  minimumBytes := 64
  averageBytes := 256
  maximumBytes := 16777216
  gearSeed := gearOf 0
  supported := by decide
  ordered := by decide
  power := ⟨8, rfl⟩

def zeros (count : Nat) : Bytes := List.replicate (count * 64) 0

variable {byteAt : Nat → UInt8}

/-- On zeros the seeded gear hash stays zero, so the first pair is a cut. -/
theorem gearPair_zero {mask : UInt64} (hzero : ∀ i, byteAt i = 0) (index : Nat) :
    gearPair sparse mask byteAt index 0 = .error (index * 2) := by
  have hhash : ((0 : UInt64) <<< 2) +
      ((gearOf (byteAt (index * 2)) <<< 1) ^^^ (sparse.gearSeed <<< 1)) = 0 := by
    have hseed : sparse.gearSeed = gearOf 0 := by
      dsimp only [sparse]
    rw [hzero, hseed, UInt64.xor_self]
    decide
  unfold gearPair
  rw [hhash, if_pos UInt64.zero_and]

theorem cutScan_zero (hzero : ∀ i, byteAt i = 0) {remaining : Nat} (hremaining : 66 ≤ remaining) :
    cutScan sparse byteAt remaining = .error 64 := by
  have hturns : min sparse.averageBytes remaining / 2 - sparse.minimumBytes / 2 =
      (min 256 remaining / 2 - 33) + 1 := by
    show min 256 remaining / 2 - 64 / 2 = _
    omega
  unfold cutScan
  dsimp only
  rw [hturns]
  unfold gearScan
  rw [gearPair_zero hzero]
  rfl

theorem getD_zeros (count i : Nat) : (zeros count).getD i 0 = 0 := by
  by_cases hi : i < count * 64
  · exact getD_replicate 0 hi
  · exact getD_eq_default _ _ (by rw [zeros, length_replicate]; omega)

theorem cutOf_zeros (count : Nat) : cutOf sparse (zeros (count + 1)) = 64 := by
  have hlen : (zeros (count + 1)).length = (count + 1) * 64 := length_replicate
  by_cases hone : count = 0
  · -- A single chunk is too short to be scanned.
    subst hone
    rcases cutOf_cases sparse (zeros 1) with ⟨_, hcut⟩ | ⟨hmin, _⟩ | ⟨hmin, _⟩
    · rw [hcut, hlen]
    · exact absurd hmin (by decide)
    · exact absurd hmin (by decide)
  · refine cutOf_of_error (by show 64 < _; omega) (cutScan_zero (getD_zeros (count + 1)) ?_)
    show 66 ≤ min _ 16777216
    omega

theorem chunks_zeros : ∀ count : Nat,
    (fastCdc sparse).chunks (zeros count) = List.replicate count (zeros 1) := by
  intro count
  induction count with
  | zero => rfl
  | succ count ih =>
    have hne : zeros (count + 1) ≠ [] := by
      apply ne_nil_of_length_pos
      rw [zeros, length_replicate]
      omega
    have htake : (zeros (count + 1)).take (cutOf sparse (zeros (count + 1))) = zeros 1 := by
      rw [cutOf_zeros, zeros, take_replicate]
      congr 1
      omega
    have hdrop : (zeros (count + 1)).drop (cutOf sparse (zeros (count + 1))) = zeros count := by
      rw [cutOf_zeros, zeros, drop_replicate]
      congr 1
      omega
    rw [Cutter.chunks_of_ne_nil _ hne, replicate_succ]
    show (zeros (count + 1)).take (cutOf sparse _) ::
      (fastCdc sparse).chunks ((zeros (count + 1)).drop (cutOf sparse _)) = _
    rw [htake, hdrop, ih]

/-- Above the threshold of a whole small file, zeros are cut at the minimum size. -/
theorem fileChunks_zeros {count : Nat} (hlarge : 16777216 < count * 64) :
    fileChunks sparse (zeros count) = List.replicate count (zeros 1) := by
  have hlen : (zeros count).length = count * 64 := length_replicate
  have hne : zeros count ≠ [] := ne_nil_of_length_pos (by omega)
  have hsmall : ¬ (zeros count).length ≤ sparse.maximumBytes := by
    show ¬ _ ≤ 16777216
    omega
  rw [fileChunks, chunksOf, if_neg hne, if_neg (fun h => hsmall (of_decide_eq_true h)),
    chunks_zeros]

theorem not_readable_zeros :
    ¬ ReadableCount sparse (fileChunks sparse (zeros (2 ^ 43))).length := by
  rw [fileChunks_zeros (by decide), length_replicate]
  intro hreadable
  have hdepth : 6 < Nat.clog chunkTreeFanout (2 ^ 43) :=
    (Nat.lt_clog_iff_pow_lt (by decide)).2 (by decide)
  exact absurd (hreadable 6 hdepth) (by decide)

/-- One chunk more than a whole small file has room for. -/
def manyChunks : Nat := 262145

theorem length_zeros_lt {count : Nat} (hcount : count ≤ manyChunks + 1) :
    (zeros count).length < wordLimit := by
  have hword : (manyChunks + 1) * 64 < wordLimit := by decide
  rw [zeros, length_replicate]
  omega

theorem zeros_append (count : Nat) : zeros (count + 1) = zeros count ++ zeros 1 := by
  rw [zeros, zeros, zeros, ← replicate_add, Nat.add_mul]

theorem length_fileChunks_many : (fileChunks sparse (zeros manyChunks)).length = manyChunks := by
  rw [fileChunks_zeros (by decide), length_replicate]

theorem readable_zeros : ReadableCount sparse (fileChunks sparse (zeros manyChunks)).length := by
  rw [length_fileChunks_many]
  intro k hk
  have hdepth : Nat.clog chunkTreeFanout manyChunks ≤ 3 :=
    Nat.clog_le_of_le_pow (by decide)
  have hpow : chunkTreeFanout ^ k ≤ chunkTreeFanout ^ 3 :=
    Nat.pow_le_pow_right (by decide) (by omega)
  exact (Nat.mul_le_mul_right _ hpow).trans_lt (by decide)

/-! ## An identity without collisions -/

/-- An environment that meets the assumptions exists. -/
theorem exists_sound : ∃ env : ContentEnv Nat, env.Sound := by
  obtain ⟨identify, hidentify⟩ := exists_injective_nat (ObjectRecord Nat)
  exact ⟨⟨identify, fun profile source => spans 0 ((fastCdc profile).chunks source),
    fun profile source => spans 0 ((fastCdc profile).chunks source)⟩, hidentify,
    fun _ _ _ => rfl, fun _ _ _ => rfl⟩

end Astrid.Content
