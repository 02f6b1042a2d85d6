import Astrid.Lib.Bytes
import Astrid.Lib.Chunks

/-!
# Chunk boundaries

`content_dag/boundary.rs`: where a content-defined chunk ends. `cutIndex` rolls a gear
hash over the bytes, two at a time, from the minimum chunk size on; a chunk ends where
the masked hash is zero, with a stricter mask before the average size and a looser one
behind it, and at the maximum size at the latest.

All of its bounds (`remaining`, `center`) depend on how many bytes follow. They decide
how far the scan goes and where the mask changes, but not where a found cut lies:
`fastCdc` shows that `cutIndex` is a `Cutter` with a window of two bytes.
-/

namespace Astrid

open List

/-! ## Profiles -/

/-- Persistent content-defined chunking parameters. -/
structure ChunkingProfile where
  minimumBytes : Nat
  averageBytes : Nat
  maximumBytes : Nat
  gearSeed : UInt64
  supported : (64 ≤ minimumBytes ∧ minimumBytes ≤ 1048576) ∧
    (256 ≤ averageBytes ∧ averageBytes ≤ 4194304) ∧
    (1024 ≤ maximumBytes ∧ maximumBytes ≤ 16777216)
  ordered : minimumBytes < averageBytes ∧ averageBytes < maximumBytes
  power : averageBytes.isPowerOfTwo
  deriving DecidableEq

/-- Targets 64 KiB chunks between 16 and 256 KiB, with the unseeded gear table. -/
def ChunkingProfile.astridV1 : ChunkingProfile where
  minimumBytes := 16 * 1024
  averageBytes := 64 * 1024
  maximumBytes := 256 * 1024
  gearSeed := 0
  supported := by decide
  ordered := by decide
  power := ⟨16, rfl⟩

/-- Sizes are even in every profile that the current library scans. -/
def ChunkingProfile.usesLegacyFastcdcV4 (profile : ChunkingProfile) : Bool :=
  profile.minimumBytes % 2 ≠ 0 || profile.averageBytes % 2 ≠ 0 || profile.maximumBytes % 2 ≠ 0

/-! ## The scan -/

def masks : Array UInt64 := #[
  0, 0, 0, 0, 0, 0x1804110,
  0x1803110, 0x18035100, 0x1800035300, 0x19000353000, 0x590003530000, 0xd90003530000,
  0xd90103530000, 0xd90303530000, 0xd90313530000, 0xd90f03530000, 0xd90303537000, 0xd90703537000,
  0xd90707537000, 0xd91707537000, 0xd91747537000, 0xd91767537000, 0xd93767537000, 0xd93777537000,
  0xd93777577000, 0xdb3777577000]

def gear : Array UInt64 := #[
  0x3b5d3c7d207e37dc, 0x784d68ba91123086, 0xcd52880f882e7298, 0xeacf8e4e19fdcca7,
  0xc31f385dfbd1632b, 0x1d5f27001e25abe6, 0x83130bde3c9ad991, 0xc4b225676e9b7649,
  0xaa329b29e08eb499, 0xb67fcbd21e577d58, 0x0027baaada2acf6b, 0xe3ef2d5ac73c2226,
  0x0890f24d6ed312b7, 0xa809e036851d7c7e, 0xf0a6fe5e0013d81b, 0x1d026304452cec14,
  0x03864632648e248f, 0xcdaacf3dcd92b9b4, 0xf5e012e63c187856, 0x8862f9d3821c00b6,
  0xa82f7338750f6f8a, 0x1e583dc6c1cb0b6f, 0x7a3145b69743a7f1, 0xabb20fee404807eb,
  0xb14b3cfe07b83a5d, 0xb9dc27898adb9a0f, 0x3703f5e91baa62be, 0xcf0bb866815f7d98,
  0x3d9867c41ea9dcd3, 0x1be1fa65442bf22c, 0x14300da4c55631d9, 0xe698e9cbc6545c99,
  0x4763107ec64e92a5, 0xc65821fc65696a24, 0x76196c064822f0b7, 0x485be841f3525e01,
  0xf652bc9c85974ff5, 0xcad8352face9e3e9, 0x2a6ed1dceb35e98e, 0xc6f483badc11680f,
  0x3cfd8c17e9cf12f1, 0x89b83c5e2ea56471, 0xae665cfd24e392a9, 0xec33c4e504cb8915,
  0x3fb9b15fc9fe7451, 0xd7fd1fd1945f2195, 0x31ade0853443efd8, 0x255efc9863e1e2d2,
  0x10eab6008d5642cf, 0x46f04863257ac804, 0xa52dc42a789a27d3, 0xdaaadf9ce77af565,
  0x6b479cd53d87febb, 0x6309e2d3f93db72f, 0xc5738ffbaa1ff9d6, 0x6bd57f3f25af7968,
  0x67605486d90d0a4a, 0xe14d0b9663bfbdae, 0xb7bbd8d816eb0414, 0xdef8a4f16b35a116,
  0xe7932d85aaaffed6, 0x08161cbae90cfd48, 0x855507beb294f08b, 0x91234ea6ffd399b2,
  0xad70cf4b2435f302, 0xd289a97565bc2d27, 0x8e558437ffca99de, 0x96d2704b7115c040,
  0x0889bbcdfc660e41, 0x5e0d4e67dc92128d, 0x72a9f8917063ed97, 0x438b69d409e016e3,
  0xdf4fed8a5d8a4397, 0x00f41dcf41d403f7, 0x4814eb038e52603f, 0x9dafbacc58e2d651,
  0xfe2f458e4be170af, 0x4457ec414df6a940, 0x06e62f1451123314, 0xbd1014d173ba92cc,
  0xdef318e25ed57760, 0x9fea0de9dfca8525, 0x459de1e76c20624b, 0xaeec189617e2d666,
  0x126a2c06ab5a83cb, 0xb1321532360f6132, 0x65421503dbb40123, 0x2d67c287ea089ab3,
  0x6c93bff5a56bd6b6, 0x4ffb2036cab6d98d, 0xce7b785b1be7ad4f, 0xedb42ef6189fd163,
  0xdc905288703988f6, 0x365f9c1d2c691884, 0xc640583680d99bfe, 0x3cd4624c07593ec6,
  0x7f1ea8d85d7c5805, 0x014842d480b57149, 0x0b649bcb5a828688, 0xbcd5708ed79b18f0,
  0xe987c862fbd2f2f0, 0x982731671f0cd82c, 0xbaf13e8b16d8c063, 0x8ea3109cbd951bba,
  0xd141045bfb385cad, 0x2acbc1a0af1f7d30, 0xe6444d89df03bfdf, 0xa18cc771b8188ff9,
  0x9834429db01c39bb, 0x214add07fe086a1f, 0x8f07c19b1f6b3ff9, 0x56a297b1bf4ffe55,
  0x94d558e493c54fc7, 0x40bfc24c764552cb, 0x931a706f8a8520cb, 0x32229d322935bd52,
  0x2560d0f5dc4fefaf, 0x9dbcc48355969bb6, 0x0fd81c3985c0b56a, 0xe03817e1560f2bda,
  0xc1bb4f81d892b2d5, 0xb0c4864f4e28d2d7, 0x3ecc49f9d9d6c263, 0x51307e99b52ba65e,
  0x8af2b688da84a752, 0xf5d72523b91b20b6, 0x6d95ff1ff4634806, 0x562f21555458339a,
  0xc0ce47f889336346, 0x487823e5089b40d8, 0xe4727c7ebc6d9592, 0x5a8f7277e94970ba,
  0xfca2f406b1c8bb50, 0x5b1f8a95f1791070, 0xd304af9fc9028605, 0x5440ab7fc930e748,
  0x312d25fbca2ab5a1, 0x10f4a4b234a4d575, 0x90301d55047e7473, 0x3b6372886c61591e,
  0x293402b77c444e06, 0x451f34a4d3e97dd7, 0x3158d814d81bc57b, 0x034942425b9bda69,
  0xe2032ff9e532d9bb, 0x62ae066b8b2179e5, 0x9545e10c2f8d71d8, 0x7ff7483eb2d23fc0,
  0x00945fcebdc98d86, 0x8764bbbe99b26ca2, 0x1b1ec62284c0bfc3, 0x58e0fcc4f0aa362b,
  0x5f4abefa878d458d, 0xfd74ac2f9607c519, 0xa4e3fb37df8cbfa9, 0xbf697e43cac574e5,
  0x86f14a3f68f4cd53, 0x24a23d076f1ce522, 0xe725cd8048868cc8, 0xbf3c729eb2464362,
  0xd8f6cd57b3cc1ed8, 0x6329e52425541577, 0x62aa688ad5ae1ac0, 0x0a242566269bf845,
  0x168b1a4753aca74b, 0xf789afefff2e7e3c, 0x6c3362093b6fccdb, 0x4ce8f50bd28c09b2,
  0x006a2db95ae8aa93, 0x975b0d623c3d1a8c, 0x18605d3935338c5b, 0x5bb6f6136cad3c71,
  0x0f53a20701f8d8a6, 0xab8c5ad2e7e93c67, 0x40b5ac5127acaa29, 0x8c7bf63c2075895f,
  0x78bd9f7e014a805c, 0xb2c9e9f4f9c8c032, 0xefd6049827eb91f3, 0x2be459f482c16fbd,
  0xd92ce0c5745aaa8c, 0x0aaa8fb298d965b9, 0x2b37f92c6c803b15, 0x8c54a5e94e0f0e78,
  0x95f9b6e90c0a3032, 0xe7939faa436c7874, 0xd16bfe8f6a8a40c9, 0x44982b86263fd2fa,
  0xe285fb39f984e583, 0x779a8df72d7619d3, 0xf2d79a8de8d5dd1e, 0xd1037354d66684e2,
  0x004c82a4e668a8e5, 0x31d40a7668b044e6, 0xd70578538bd02c11, 0xdb45431078c5f482,
  0x977121bb7f6a51ad, 0x73d5ccbd34eff8dd, 0xe437a07d356e17cd, 0x47b2782043c95627,
  0x9fb251413e41d49a, 0xccd70b60652513d3, 0x1c95b31e8a1b49b2, 0xcae73dfd1bcb4c1b,
  0x34d98331b1f5b70f, 0x784e39f22338d92f, 0x18613d4a064df420, 0xf1d8dae25f0bcebe,
  0x33f77c15ae855efc, 0x3c88b3b912eb109c, 0x956a2ec96bafeea5, 0x1aa005b5e0ad0e87,
  0x5500d70527c4bb8e, 0xe36c57196421cc44, 0x13c4d286cc36ee39, 0x5654a23d818b2a81,
  0x77b1dc13d161abdc, 0x734f44de5f8d5eb5, 0x60717e174a6c89a2, 0xd47d9649266a211e,
  0x5b13a4322bb69e90, 0xf7669609f8b5fc3c, 0x21e6ac55bedcdac9, 0x9b56b62b61166dea,
  0xf48f66b939797e9c, 0x35f332f9c0e6ae9a, 0xcc733f6a9a878db0, 0x3da161e41cc108c2,
  0xb7d74ae535914d51, 0x4d493b0b11d36469, 0xce264d1dfba9741a, 0xa9d1f2dc7436dc06,
  0x70738016604c2a27, 0x231d36e96e93f3d5, 0x7666881197838d19, 0x4a2a83090aaad40c,
  0xf1e761591668b35d, 0x7363236497f730a7, 0x301080e37379dd4d, 0x502dea2971827042,
  0xc2c5eb858f32625f, 0x786afb9edfafbdff, 0xdaee0d868490b2a4, 0x617366b3268609f6,
  0xae0e35a0fe46173e, 0xd1a07de93e824f11, 0x079b8b115ea4cca8, 0x93a99274558faebb,
  0xfb1e6e22e08a03b3, 0xea635fdba3698dd0, 0xcf53659328503a5c, 0xcde3b31e6fd5d780,
  0x8e3e4221d3614413, 0xef14d0d86bf1a22c, 0xe1d830d3f16c5ddb, 0xaabd2b2a451504e1]

def gearOf (byte : UInt8) : UInt64 := gear.getD byte.toNat 0

/-- The number of trailing zero bits of a 32-bit value. -/
def trailingZeros (value : Nat) : Nat := ((range 32).find? value.testBit).getD 32

namespace ChunkingProfile

def maskS (profile : ChunkingProfile) : UInt64 :=
  masks.getD (trailingZeros profile.averageBytes + 1) 0

def maskL (profile : ChunkingProfile) : UInt64 :=
  masks.getD (trailingZeros profile.averageBytes - 1) 0

end ChunkingProfile

section Scan

variable (profile : ChunkingProfile)

/-- One turn of a scan loop, at two bytes; the error is the cut that was found. -/
def gearPair (mask : UInt64) (byteAt : Nat → UInt8) (index : Nat) (hash : UInt64) :
    Except Nat UInt64 :=
  let hash := (hash <<< 2) + ((gearOf (byteAt (index * 2)) <<< 1) ^^^ (profile.gearSeed <<< 1))
  if hash &&& (mask <<< 1) = 0 then .error (index * 2)
  else
    let hash := hash + (gearOf (byteAt (index * 2 + 1)) ^^^ profile.gearSeed)
    if hash &&& mask = 0 then .error (index * 2 + 1) else .ok hash

/-- A scan loop of `count` turns from `index` on. -/
def gearScan (mask : UInt64) (byteAt : Nat → UInt8) :
    Nat → Nat → UInt64 → Except Nat UInt64
  | 0, _, hash => .ok hash
  | count + 1, index, hash => do
    let hash ← gearPair profile mask byteAt index hash
    gearScan mask byteAt count (index + 1) hash

/-- Both loops, over `remaining` bytes: the stricter mask up to the center, then the
looser one. -/
def cutScan (byteAt : Nat → UInt8) (remaining : Nat) : Except Nat UInt64 := do
  let start := profile.minimumBytes / 2
  let center := min profile.averageBytes remaining
  let hash ← gearScan profile profile.maskS byteAt (center / 2 - start) start 0
  let index := start + (center / 2 - start)
  gearScan profile profile.maskL byteAt (remaining / 2 - index) index hash

/-- Where the first chunk of `left ++ rightPrefix` ends. -/
def cutIndex (left rightPrefix : Bytes) : Nat :=
  let byteAt index :=
    if left.length ≤ index then rightPrefix.getD (index - left.length) 0 else left.getD index 0
  let remaining := min (left.length + rightPrefix.length) profile.maximumBytes
  if remaining ≤ profile.minimumBytes then remaining
  else
    match cutScan profile byteAt remaining with
    | .error at_ => at_
    | .ok _ => remaining

def isCanonicalBoundary (left rightPrefix : Bytes) : Bool :=
  !left.isEmpty && !rightPrefix.isEmpty && cutIndex profile left rightPrefix == left.length

def isCanonicalFinalChunk (bytes : Bytes) : Bool :=
  !bytes.isEmpty && cutIndex profile bytes [] == bytes.length

end Scan

/-! ## Where a scan stops -/

section Stops

variable {profile : ChunkingProfile} {mask : UInt64} {byteAt byteAt' : Nat → UInt8}
  {index at_ : Nat} {hash : UInt64}

theorem gearPair_error (h : gearPair profile mask byteAt index hash = .error at_) :
    at_ / 2 = index := by
  unfold gearPair at h
  dsimp only at h
  split at h
  next =>
    cases h
    omega
  next =>
    split at h
    next =>
      cases h
      omega
    next => cases h

theorem gearScan_add (first second index : Nat) (hash : UInt64) :
    gearScan profile mask byteAt (first + second) index hash =
      gearScan profile mask byteAt first index hash >>=
        gearScan profile mask byteAt second (index + first) := by
  induction first generalizing index hash with
  | zero =>
    rw [zero_add]
    rfl
  | succ _ ih =>
    rw [Nat.succ_add]
    show (gearPair profile mask byteAt index hash >>= _) =
      (gearPair profile mask byteAt index hash >>= _) >>= _
    rw [bind_assoc]
    congr 1
    funext hash'
    rw [ih, Nat.succ_add_eq_add_succ]

/-- A cut lies within the scanned pairs. -/
theorem gearScan_error {count : Nat}
    (h : gearScan profile mask byteAt count index hash = .error at_) :
    index ≤ at_ / 2 ∧ at_ / 2 < index + count := by
  induction count generalizing index hash with
  | zero => cases h
  | succ _ ih =>
    unfold gearScan at h
    cases hpair : gearPair profile mask byteAt index hash with
    | error =>
      rw [hpair] at h
      cases h
      have := gearPair_error hpair
      omega
    | ok =>
      rw [hpair] at h
      have := ih h
      omega

/-- A cut is found by every scan that comes as far as it. -/
theorem gearScan_reaches {count count' : Nat}
    (h : gearScan profile mask byteAt count index hash = .error at_)
    (hreach : at_ / 2 < index + count') :
    gearScan profile mask byteAt count' index hash = .error at_ := by
  rcases le_total count count' with hle | hle
  · obtain ⟨more, rfl⟩ := Nat.exists_eq_add_of_le hle
    rw [gearScan_add, h]
    rfl
  obtain ⟨_, rfl⟩ := Nat.exists_eq_add_of_le hle
  rw [gearScan_add] at h
  cases hfirst : gearScan profile mask byteAt count' index hash with
  | error =>
    rw [hfirst] at h
    exact h
  | ok =>
    rw [hfirst] at h
    have := gearScan_error h
    omega

/-- A scan reads only its own pairs. -/
theorem gearScan_congr {count limit : Nat} (hbytes : ∀ i < limit, byteAt i = byteAt' i)
    (hlimit : (index + count) * 2 ≤ limit) :
    gearScan profile mask byteAt count index hash =
      gearScan profile mask byteAt' count index hash := by
  induction count generalizing index hash with
  | zero => rfl
  | succ _ ih =>
    have hpair : gearPair profile mask byteAt index hash =
        gearPair profile mask byteAt' index hash := by
      unfold gearPair
      rw [hbytes _ (by omega), hbytes _ (by omega)]
    unfold gearScan
    congr 1
    funext next
    exact ih (by omega)

theorem cutScan_congr {remaining limit : Nat} (hbytes : ∀ i < limit, byteAt i = byteAt' i)
    (hmin : profile.minimumBytes < remaining) (hlimit : remaining ≤ limit) :
    cutScan profile byteAt remaining = cutScan profile byteAt' remaining := by
  unfold cutScan
  dsimp only
  rw [gearScan_congr hbytes (by omega)]
  congr 1
  funext hash
  exact gearScan_congr hbytes (by omega)

theorem cutScan_error {remaining : Nat} (h : cutScan profile byteAt remaining = .error at_)
    (hmin : profile.minimumBytes < remaining) :
    profile.minimumBytes / 2 ≤ at_ / 2 ∧ at_ / 2 < remaining / 2 := by
  unfold cutScan at h
  dsimp only at h
  cases hfirst : gearScan profile profile.maskS byteAt
      (min profile.averageBytes remaining / 2 - profile.minimumBytes / 2)
      (profile.minimumBytes / 2) 0 with
  | error =>
    rw [hfirst] at h
    cases h
    have := gearScan_error hfirst
    omega
  | ok =>
    rw [hfirst] at h
    have := gearScan_error h
    omega

/-- A cut is found over every length that comes as far as it. -/
theorem cutScan_reaches {remaining : Nat} (remaining' : Nat)
    (h : cutScan profile byteAt remaining = .error at_) (hmin : profile.minimumBytes < remaining)
    (hreach : at_ / 2 < remaining' / 2) :
    cutScan profile byteAt remaining' = .error at_ := by
  unfold cutScan at h ⊢
  dsimp only at h ⊢
  cases hfirst : gearScan profile profile.maskS byteAt
      (min profile.averageBytes remaining / 2 - profile.minimumBytes / 2)
      (profile.minimumBytes / 2) 0 with
  | error =>
    rw [hfirst] at h
    cases h
    have hfound := gearScan_error hfirst
    rw [gearScan_reaches hfirst (by omega)]
    rfl
  | ok =>
    -- The second loop runs at all only if the center is the average, for both lengths.
    rw [hfirst] at h
    have hfound := gearScan_error h
    have hcenter : min profile.averageBytes remaining' = min profile.averageBytes remaining := by
      omega
    rw [hcenter, hfirst]
    exact gearScan_reaches h (by omega)

end Stops

/-! ## The cutter -/

variable (profile : ChunkingProfile)

/-- Where the first chunk of a byte string ends. -/
def cutOf (bytes : Bytes) : Nat := cutIndex profile bytes []

/-- `cutIndex` sees its two arguments as one byte string. -/
theorem cutIndex_eq (left rightPrefix : Bytes) :
    cutIndex profile left rightPrefix =
      if min (left ++ rightPrefix).length profile.maximumBytes ≤ profile.minimumBytes then
        min (left ++ rightPrefix).length profile.maximumBytes
      else match cutScan profile (fun index => (left ++ rightPrefix).getD index 0)
          (min (left ++ rightPrefix).length profile.maximumBytes) with
        | .error at_ => at_
        | .ok _ => min (left ++ rightPrefix).length profile.maximumBytes := by
  have hbytes : (fun index => if left.length ≤ index then
        rightPrefix.getD (index - left.length) 0 else left.getD index 0) =
      fun index => (left ++ rightPrefix).getD index 0 := by
    funext index
    simp only [getD_eq_getElem?_getD, getElem?_append]
    by_cases hleft : left.length ≤ index
    · rw [if_pos hleft, if_neg (by omega)]
    · rw [if_neg hleft, if_pos (by omega)]
  unfold cutIndex
  dsimp only
  rw [hbytes, length_append]

theorem cutIndex_eq_cutOf (left rightPrefix : Bytes) :
    cutIndex profile left rightPrefix = cutOf profile (left ++ rightPrefix) := by
  unfold cutOf
  rw [cutIndex_eq, cutIndex_eq, append_nil]

/-- The scan for the end of the first chunk. -/
def scanOf (bytes : Bytes) : Except Nat UInt64 :=
  cutScan profile (fun index => bytes.getD index 0) (min bytes.length profile.maximumBytes)

theorem cutOf_eq (bytes : Bytes) :
    cutOf profile bytes = if min bytes.length profile.maximumBytes ≤ profile.minimumBytes then
        min bytes.length profile.maximumBytes
      else match scanOf profile bytes with
        | .error at_ => at_
        | .ok _ => min bytes.length profile.maximumBytes := by
  have hcut := cutIndex_eq profile bytes []
  rwa [append_nil] at hcut

/-- The three ways to end a chunk: too few bytes to scan, a cut that was found, or the
end of the scan. -/
theorem cutOf_cases (profile : ChunkingProfile) (bytes : Bytes) :
    (bytes.length ≤ profile.minimumBytes ∧ cutOf profile bytes = bytes.length) ∨
    (profile.minimumBytes < bytes.length ∧ scanOf profile bytes = .error (cutOf profile bytes)) ∨
    (profile.minimumBytes < bytes.length ∧
      cutOf profile bytes = min bytes.length profile.maximumBytes ∧
      ∃ hash, scanOf profile bytes = .ok hash) := by
  have hordered := profile.ordered
  rw [cutOf_eq]
  split_ifs with hshort
  · omega
  right
  cases hscan : scanOf profile bytes with
  | error => exact .inl ⟨by omega, rfl⟩
  | ok hash => exact .inr ⟨by omega, rfl, hash, rfl⟩

variable {profile : ChunkingProfile} {bytes : Bytes}

theorem cutOf_of_error {at_ : Nat} (hmin : profile.minimumBytes < bytes.length)
    (h : scanOf profile bytes = .error at_) : cutOf profile bytes = at_ := by
  have hordered := profile.ordered
  rw [cutOf_eq, if_neg (by omega), h]

theorem cutOf_of_ok {hash : UInt64} (hmin : profile.minimumBytes < bytes.length)
    (h : scanOf profile bytes = .ok hash) :
    cutOf profile bytes = min bytes.length profile.maximumBytes := by
  have hordered := profile.ordered
  rw [cutOf_eq, if_neg (by omega), h]

theorem cutOf_le_min (profile : ChunkingProfile) (bytes : Bytes) :
    cutOf profile bytes ≤ min bytes.length profile.maximumBytes := by
  have hordered := profile.ordered
  rcases cutOf_cases profile bytes with ⟨_, _⟩ | ⟨_, hscan⟩ | ⟨_, _, _⟩
  · omega
  · have hrange := cutScan_error hscan (by omega)
    omega
  · omega

/-- A chunk that is not the last has between the even minimum and the maximum size. -/
theorem cutOf_bounds (h : cutOf profile bytes < bytes.length) :
    profile.minimumBytes / 2 * 2 ≤ cutOf profile bytes ∧
      cutOf profile bytes ≤ profile.maximumBytes := by
  have hordered := profile.ordered
  rcases cutOf_cases profile bytes with ⟨_, _⟩ | ⟨_, hscan⟩ | ⟨_, _, _⟩
  · omega
  · have hrange := cutScan_error hscan (by omega)
    omega
  · omega

theorem cutOf_le (profile : ChunkingProfile) (bytes : Bytes) :
    cutOf profile bytes ≤ bytes.length := (cutOf_le_min profile bytes).trans (min_le_left _ _)

variable {xs : Bytes}

/-- Bytes of a prefix. -/
theorem getD_append_of_lt {ys : Bytes} {index : Nat} (h : index < xs.length) :
    xs.getD index 0 = (xs ++ ys).getD index 0 := by
  simp only [getD_eq_getElem?_getD]
  rw [getElem?_append_left h]

/-- A scan that ends at the maximum sees nothing of the bytes behind. -/
theorem scanOf_append (ys : Bytes) (h : profile.maximumBytes ≤ xs.length) :
    scanOf profile (xs ++ ys) = scanOf profile xs := by
  have hordered := profile.ordered
  unfold scanOf
  rw [length_append, min_eq_right (by omega), min_eq_right h]
  exact (cutScan_congr (fun i hi => getD_append_of_lt hi) (by omega) h).symm

/-- More bytes behind a cut do not move it. -/
theorem cutOf_stable (ys : Bytes) (h : cutOf profile xs < xs.length) :
    cutOf profile (xs ++ ys) = cutOf profile xs := by
  have hordered := profile.ordered
  have hlen : (xs ++ ys).length = xs.length + ys.length := length_append
  rcases cutOf_cases profile xs with ⟨_, _⟩ | ⟨_, hscan⟩ | ⟨_, _, _, hscan⟩
  · omega
  · have hrange := cutScan_error hscan (by omega)
    unfold scanOf at hscan
    rw [cutScan_congr (fun i hi => getD_append_of_lt hi) (by omega) (by omega)] at hscan
    exact cutOf_of_error (by omega) (cutScan_reaches _ hscan (by omega) (by omega))
  · rw [← scanOf_append ys (by omega)] at hscan
    rw [cutOf_of_ok (by omega) hscan]
    omega

/-- A cut with two bytes behind it needs no more than these. -/
theorem cutOf_near (ys : Bytes) (h : cutOf profile (xs ++ ys) + 2 ≤ xs.length) :
    cutOf profile xs = cutOf profile (xs ++ ys) := by
  have hordered := profile.ordered
  have hlen : (xs ++ ys).length = xs.length + ys.length := length_append
  rcases cutOf_cases profile (xs ++ ys) with ⟨_, _⟩ | ⟨_, hscan⟩ | ⟨_, _, _, hscan⟩
  · omega
  · have hrange := cutScan_error hscan (by omega)
    have hxs := cutScan_reaches (min xs.length profile.maximumBytes) hscan
      (by omega) (by omega)
    rw [← cutScan_congr (fun i hi => getD_append_of_lt hi) (by omega) (by omega)] at hxs
    exact cutOf_of_error (by omega) hxs
  · rw [scanOf_append ys (by omega)] at hscan
    rw [cutOf_of_ok (by omega) hscan]
    omega

/-- The cutter of a profile: it looks two bytes ahead. -/
def fastCdc (profile : ChunkingProfile) : Cutter UInt8 2 where
  cut := cutOf profile
  pos := by
    intro xs hxs
    have hsupported := profile.supported
    have hlen : 0 < xs.length := length_pos_of_ne_nil hxs
    by_cases h : cutOf profile xs < xs.length
    · have hbounds := cutOf_bounds h
      omega
    · omega
  le := cutOf_le profile
  wide := by
    intro xs h
    have hsupported := profile.supported
    have hbounds := cutOf_bounds h
    omega
  stable := cutOf_stable
  near := cutOf_near

theorem isCanonicalBoundary_iff {left rightPrefix : Bytes} :
    isCanonicalBoundary profile left rightPrefix = true ↔ left ≠ [] ∧ rightPrefix ≠ [] ∧
        (fastCdc profile).cut (left ++ rightPrefix) = left.length := by
  unfold isCanonicalBoundary
  rw [cutIndex_eq_cutOf]
  simp [and_assoc, fastCdc]

theorem isCanonicalFinalChunk_iff :
    isCanonicalFinalChunk profile bytes = true ↔
      bytes ≠ [] ∧ (fastCdc profile).cut bytes = bytes.length := by
  unfold isCanonicalFinalChunk
  rw [cutIndex_eq_cutOf]
  simp [fastCdc]

end Astrid
