import BitcoinClib.Block.CompactInt

/-!
Contract: the proof of work of a block header.

Owns:
- `satoshi_block_header_verify` for every caller: with a buffer for the hash, or without;
- what it should decide (`MeetsTarget`), on the exact target that the bits encode;
- the calls in which it decides that (`headerVerify_iff`).

Does not own: the difficulty the bits of a header should have.
-/

namespace BitcoinClib.Block

open BitcoinClib.Types
open BitcoinClib.Crypto

/-- `satoshi_block_header_verify`; `pHash` is what the caller's pointer points to, `stale` what
the local array is found with. The verdict, and what the pointer points to afterwards. -/
def headerVerify (crypto : CryptoBackend) (stale : Uint256) (hdr : BlockHeader)
    (pHash : Option Uint256) : Int × Option Uint256 :=
  match pHash with
  | none =>
      -- `p_hash` becomes the local array, which is written
      let hash := hash256 crypto (headerBytes hdr)
      (if 0 < uint256CompareWithCompact hash hdr.bits then -1 else 0, none)
  | some _ =>
      let hash := stale
      (if 0 < uint256CompareWithCompact hash hdr.bits then -1 else 0,
        some (hash256 crypto (headerBytes hdr)))

/-- The call that `satoshi_block_parse` makes. -/
theorem headerVerify_some (crypto : CryptoBackend) (stale pHash : Uint256) (hdr : BlockHeader) :
    headerVerify crypto stale hdr (some pHash) =
      ((satoshiBlockHeaderVerify crypto stale hdr).1,
        some (satoshiBlockHeaderVerify crypto stale hdr).2) := rfl

/-- The sign bit of the bits is clear and their mantissa is not zero. -/
def PositiveTarget (bits : UInt32) : Prop :=
  compactMantissa bits < 2 ^ 23 ∧ compactMantissa bits ≠ 0

/-- The target `mantissa * 256 ^ (exp - 3)` is below `2 ^ 256`. -/
def RepresentableTarget (bits : UInt32) : Prop :=
  compactMantissa bits * 256 ^ compactExp bits < 2 ^ 256 * 256 ^ 3

/-- The integer is at most `mantissa * 256 ^ (exp - 3)`. -/
def AtMostTarget (hash : Nat) (bits : UInt32) : Prop :=
  hash * 256 ^ 3 ≤ compactMantissa bits * 256 ^ compactExp bits

/-- What the proof of work of a header asks for. -/
def MeetsTarget (crypto : CryptoBackend) (hdr : BlockHeader) : Prop :=
  PositiveTarget hdr.bits ∧ RepresentableTarget hdr.bits ∧
    AtMostTarget (uint256Value (hash256 crypto (headerBytes hdr))) hdr.bits

/-- The hash that is compared. -/
def comparedHash (crypto : CryptoBackend) (stale : Uint256) (hdr : BlockHeader)
    (pHash : Option Uint256) : Uint256 :=
  if pHash.isNone then hash256 crypto (headerBytes hdr) else stale

/-- Bits that are decoded to the target they encode, or a hash for which the difference does
not matter. -/
def BitsDecide (bits : UInt32) (hash : Nat) : Prop :=
  if 32 < compactExp bits then
    -- decoded as the largest integer
    PositiveTarget bits ∧ RepresentableTarget bits ∧ AtMostTarget hash bits
  else if compactMantissa bits = 0 ∨ 2 ^ 23 ≤ compactMantissa bits then
    -- decoded although no target is encoded
    compactValue bits < hash
  else if compactExp bits < 3 then
    -- the low bytes of the mantissa are taken for the high ones
    (hash ≤ compactMantissa bits % 256 ^ compactExp bits ↔
      hash ≤ compactMantissa bits / 256 ^ (3 - compactExp bits))
  else True

theorem uint256CompareWithCompact_pos (hash : Uint256) (bits : UInt32) :
    0 < uint256CompareWithCompact hash bits ↔ compactValue bits < uint256Value hash := by
  unfold uint256CompareWithCompact
  rw [uint256Compare_eq, compactToUint256_value]
  split_ifs <;> omega

/-- The verdict is about the hash that is compared and the target the bits are decoded to. -/
theorem headerVerify_eq_zero {crypto : CryptoBackend} {stale : Uint256} {hdr : BlockHeader}
    {pHash : Option Uint256} :
    (headerVerify crypto stale hdr pHash).1 = 0 ↔
      uint256Value (comparedHash crypto stale hdr pHash) ≤ compactValue hdr.bits := by
  have verdict (hash : Uint256) :
      (if 0 < uint256CompareWithCompact hash hdr.bits then (-1 : Int) else 0) = 0 ↔
        uint256Value hash ≤ compactValue hdr.bits := by
    rw [← not_lt, ← uint256CompareWithCompact_pos]
    split_ifs with above
    · simp [above]
    · simp [above]
  cases pHash with
  | none => exact verdict _
  | some buffer => exact verdict _

theorem headerVerify_verdict (crypto : CryptoBackend) (stale : Uint256) (hdr : BlockHeader)
    (pHash : Option Uint256) : (headerVerify crypto stale hdr pHash).1 = 0 ∨
      (headerVerify crypto stale hdr pHash).1 = -1 := by
  cases pHash with
  | none =>
      unfold headerVerify
      dsimp only
      split_ifs
      · exact .inr rfl
      · exact .inl rfl
  | some buffer =>
      unfold headerVerify
      dsimp only
      split_ifs
      · exact .inr rfl
      · exact .inl rfl

/-- The target with a non-negative exponent is an integer. -/
theorem atMostTarget_of_le {bits : UInt32} (large : 3 ≤ compactExp bits) (hash : Nat) :
    AtMostTarget hash bits ↔ hash ≤ compactMantissa bits * 256 ^ (compactExp bits - 3) := by
  have power : 256 ^ compactExp bits = 256 ^ (compactExp bits - 3) * 256 ^ 3 := by
    rw [← pow_add, Nat.sub_add_cancel large]
  rw [AtMostTarget, power, ← Nat.mul_assoc]
  exact Nat.mul_le_mul_right_iff (by positivity)

/-- Below that, integers are compared with its integral part. -/
theorem atMostTarget_of_lt {bits : UInt32} (small : compactExp bits < 3) (hash : Nat) :
    AtMostTarget hash bits ↔ hash ≤ compactMantissa bits / 256 ^ (3 - compactExp bits) := by
  have power : 256 ^ 3 = 256 ^ (3 - compactExp bits) * 256 ^ compactExp bits := by
    rw [← pow_add, Nat.sub_add_cancel small.le]
  rw [AtMostTarget, power, ← Nat.mul_assoc, Nat.le_div_iff_mul_le (by positivity)]
  exact Nat.mul_le_mul_right_iff (by positivity)

theorem representableTarget_of_le {bits : UInt32} (inside : compactExp bits ≤ 32)
    (small : compactMantissa bits < 2 ^ 23) : RepresentableTarget bits := by
  have power : 256 ^ compactExp bits ≤ 256 ^ 32 := Nat.pow_le_pow_right (by decide) inside
  calc
    compactMantissa bits * 256 ^ compactExp bits ≤ 2 ^ 23 * 256 ^ 32 :=
      Nat.mul_le_mul small.le power
    _ < 2 ^ 256 * 256 ^ 3 := by decide

/-- The decoded target decides like the encoded one. -/
theorem bitsDecide_iff (bits : UInt32) {hash : Nat} (small : hash < 256 ^ 32) :
    BitsDecide bits hash ↔ (hash ≤ compactValue bits ↔
      PositiveTarget bits ∧ RepresentableTarget bits ∧ AtMostTarget hash bits) := by
  unfold BitsDecide
  split
  next beyond =>
    have decoded : compactValue bits = 256 ^ 32 - 1 := if_pos beyond
    rw [decoded]
    have accepted : hash ≤ 256 ^ 32 - 1 := by omega
    simp only [accepted, true_iff]
  next inside =>
    split
    next invalid =>
      have none : ¬ PositiveTarget bits := by
        unfold PositiveTarget
        omega
      simp only [none, false_and, iff_false, not_le]
    next valid =>
      have positive : PositiveTarget bits := by
        unfold PositiveTarget
        omega
      have fits := representableTarget_of_le (by omega) positive.1
      simp only [positive, fits, true_and]
      split
      next low =>
        rw [atMostTarget_of_lt low, compactValue, if_neg inside, if_pos low]
      next high =>
        rw [atMostTarget_of_le (by omega), compactValue, if_neg inside, if_neg high]
        simp only [iff_self]

/-- The verdict is the proof of work, and the same without a buffer, exactly when the compared
hash is on the same side of the decoded target as the hash of the header and the bits decide
about that hash. -/
theorem headerVerify_iff (crypto : CryptoBackend) (stale : Uint256) (hdr : BlockHeader)
    (pHash : Option Uint256) :
    (((headerVerify crypto stale hdr pHash).1 = 0 ↔ MeetsTarget crypto hdr) ∧
      (headerVerify crypto stale hdr pHash).2 =
        pHash.map (fun _ => hash256 crypto (headerBytes hdr)) ∧
      (headerVerify crypto stale hdr pHash).1 = (headerVerify crypto stale hdr none).1) ↔
    (pHash = none ∨ (uint256Value stale ≤ compactValue hdr.bits ↔
        uint256Value (hash256 crypto (headerBytes hdr)) ≤ compactValue hdr.bits)) ∧
      BitsDecide hdr.bits (uint256Value (hash256 crypto (headerBytes hdr))) := by
  have stored : (headerVerify crypto stale hdr pHash).2 =
      pHash.map (fun _ => hash256 crypto (headerBytes hdr)) := by
    cases pHash with
    | none => rfl
    | some buffer => rfl
  have alone : (headerVerify crypto stale hdr none).1 = 0 ↔
      uint256Value (hash256 crypto (headerBytes hdr)) ≤ compactValue hdr.bits :=
    headerVerify_eq_zero
  have sameVerdict : (headerVerify crypto stale hdr pHash).1 =
      (headerVerify crypto stale hdr none).1 ↔
      pHash = none ∨ (uint256Value stale ≤ compactValue hdr.bits ↔
        uint256Value (hash256 crypto (headerBytes hdr)) ≤ compactValue hdr.bits) := by
    cases pHash with
    | none => simp
    | some buffer =>
        have given : (headerVerify crypto stale hdr (some buffer)).1 = 0 ↔
            uint256Value stale ≤ compactValue hdr.bits := headerVerify_eq_zero
        have first := headerVerify_verdict crypto stale hdr (some buffer)
        have second := headerVerify_verdict crypto stale hdr none
        rw [← given, ← alone]
        constructor
        · intro same
          rw [same]
          exact .inr Iff.rfl
        · intro same
          have sides := same.resolve_left (by simp)
          omega
  rw [bitsDecide_iff hdr.bits (uint256Value_lt _), ← sameVerdict]
  constructor
  · intro right
    obtain ⟨verdict, -, same⟩ := right
    refine ⟨same, ?_⟩
    rw [← alone, ← same]
    exact verdict
  · intro right
    obtain ⟨same, decides⟩ := right
    refine ⟨?_, stored, same⟩
    rw [same, alone]
    exact decides

instance (hash : Nat) (bits : UInt32) :
    Decidable (PositiveTarget bits ∧ RepresentableTarget bits ∧ AtMostTarget hash bits) :=
  inferInstanceAs (Decidable ((_ < _ ∧ _ ≠ _) ∧ _ < _ ∧ _ ≤ _))

instance (crypto : CryptoBackend) (hdr : BlockHeader) : Decidable (MeetsTarget crypto hdr) :=
  inferInstanceAs (Decidable (_ ∧ _ ∧ _))

/-- Two headers without proof of work are accepted: one with a target of 1, where the local
array is found with zeros, and one without a target in 256 bits, in a call with NULL. -/
theorem headerVerify_accepts_without_work :
    ∃ first second : BlockHeader,
      (headerVerify sampleCrypto uint256Zero first (some uint256Zero)).1 = 0 ∧
      ¬ MeetsTarget sampleCrypto first ∧
      (headerVerify sampleCrypto uint256Zero first none).1 = -1 ∧
      (headerVerify sampleCrypto uint256Zero second none).1 = 0 ∧
      ¬ MeetsTarget sampleCrypto second :=
  ⟨⟨1, uint256Zero, uint256Zero, 0, 0x03000001, 0⟩, ⟨1, uint256Zero, uint256Zero, 0, 0x24000001, 0⟩,
    by decide +kernel⟩

end BitcoinClib.Block
