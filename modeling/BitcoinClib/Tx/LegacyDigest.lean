import BitcoinClib.Tx.RawTx

/-!
Contract: the running SHA context behind legacy signature hashes.

Owns:
- `legacyPreimage`, the bytes a SIGHASH_ALL digest is defined over, independent of
  any earlier call;
- `digestCalls`, a sequence of digest calls on one attached transaction;
- the exact sequences in which every call returns the digest of `legacyPreimage`.

After a call for input `i` the running context holds the inputs before `i`, while
`last_hashed_txin_index` is set to `i - 1`. The next call starts to hash at that
index, so input `i - 1` is absorbed a second time unless `i = 0`.
-/

namespace BitcoinClib.Tx

open BitcoinClib.Lib
open BitcoinClib.Types
open BitcoinClib.Crypto

/-! ## Uncached digest -/

/-- The script that is current for an input: its redeem scripts from the start position on. -/
def scriptCode (txin : TxinState) : Bytes :=
  (txin.redeemScripts.getD []).drop txin.redeemScriptsStartPos

/-- All inputs in order, with the given script in one of them and empty scripts in the others. -/
def legacyTxinsBytes (tx : SatoshiTx) (curIndex : Nat) (script : Bytes) : Bytes :=
  tx.txins.zipIdx.flatMap fun (txin, index) =>
    rawTxinBytes txin (if index = curIndex then varstrNew script else varstrEmpty)

/-- Version and input count, which `satoshi_rawtx_attach` absorbs first. -/
def legacyHeaderBytes (tx : SatoshiTx) : Bytes :=
  tx.versionBytes ++ varintSetData tx.txins.length

/-- Outputs, lock time and hash type of a SIGHASH_ALL digest. -/
def legacyTrailerBytes (tx : SatoshiTx) : Bytes :=
  varintSetData tx.txouts.length ++ tx.txouts.flatMap txoutBytes ++ tx.lockTimeBytes ++
    leBytes 4 sighashAll.toNat

/-- The bytes signed under SIGHASH_ALL for an input with the given script. -/
def legacyPreimage (tx : SatoshiTx) (curIndex : Nat) (script : Bytes) : Bytes :=
  legacyHeaderBytes tx ++ legacyTxinsBytes tx curIndex script ++ legacyTrailerBytes tx

/-- A call for an input: its index, and the input state at that time. -/
structure DigestCall where
  index : Nat
  txin : TxinState
deriving DecidableEq, Repr

/-- The value a call should return. -/
def DigestCall.uncached (crypto : CryptoBackend) (tx : SatoshiTx) (call : DigestCall) : Uint256 :=
  hash256 crypto (legacyPreimage tx call.index (scriptCode call.txin))

/-- The values a sequence of calls returns. -/
def digestCalls (crypto : CryptoBackend) (tx : SatoshiTx) :
    SatoshiRawtx → List DigestCall → Exec (List (Option Uint256))
  | _, [] => .ok []
  | rawtx, call :: calls => do
      let (digest, rawtx) ←
        satoshiUtxoGetDigest crypto tx call.txin rawtx call.index sighashAll
      let rest ← digestCalls crypto tx rawtx calls
      return digest :: rest

/-- Every call returns its uncached value. -/
def DigestsUncached (crypto : CryptoBackend) (tx : SatoshiTx) (rawtx : SatoshiRawtx)
    (calls : List DigestCall) : Prop :=
  digestCalls crypto tx rawtx calls = .ok (calls.map fun call => some (call.uncached crypto tx))

/-! ## Preimages of the cached calls -/

/-- A list of already hashed inputs, the current one with its script, then the rest. -/
def absorbedPreimage (tx : SatoshiTx) (absorbed : Bytes) (curTxin : SatoshiTxin)
    (curIndex : Nat) (script : Bytes) : Bytes :=
  absorbed ++ rawTxinBytes curTxin (varstrNew script) ++
    emptyTxinsBytes (tx.txins.drop (curIndex + 1)) ++ legacyTrailerBytes tx

private theorem flatMap_zipIdx_of_absent (txins : List SatoshiTxin) (start curIndex : Nat)
    (script : Bytes) (absent : curIndex < start ∨ start + txins.length ≤ curIndex) :
    ((txins.zipIdx start).flatMap fun (txin, index) =>
      rawTxinBytes txin (if index = curIndex then varstrNew script else varstrEmpty)) =
        emptyTxinsBytes txins := by
  induction txins generalizing start with
  | nil => rfl
  | cons txin txins inductionHypothesis =>
      rw [List.length_cons] at absent
      have other : start ≠ curIndex := by omega
      rw [List.zipIdx_cons, List.flatMap_cons, inductionHypothesis (start + 1) (by omega)]
      simp only [if_neg other]
      rfl

/-- The inputs of the preimage, split at the current one. -/
theorem legacyTxinsBytes_eq {tx : SatoshiTx} {curIndex : Nat} {curTxin : SatoshiTxin}
    (current : tx.txins[curIndex]? = some curTxin) (script : Bytes) :
    legacyTxinsBytes tx curIndex script =
      emptyTxinsBytes (tx.txins.take curIndex) ++ rawTxinBytes curTxin (varstrNew script) ++
        emptyTxinsBytes (tx.txins.drop (curIndex + 1)) := by
  obtain ⟨inRange, value⟩ := List.getElem?_eq_some_iff.1 current
  have parts : tx.txins =
      tx.txins.take curIndex ++ curTxin :: tx.txins.drop (curIndex + 1) := by
    rw [← value, ← List.drop_eq_getElem_cons inRange, List.take_append_drop]
  have before : (tx.txins.take curIndex).length = curIndex := by
    rw [List.length_take]
    omega
  unfold legacyTxinsBytes
  conv_lhs => rw [parts]
  rw [List.zipIdx_append, List.flatMap_append, before, List.zipIdx_cons, List.flatMap_cons,
    flatMap_zipIdx_of_absent _ 0 curIndex script (.inr (by omega)),
    flatMap_zipIdx_of_absent _ (0 + curIndex + 1) curIndex script (.inl (by omega))]
  simp only [Nat.zero_add, ↓reduceIte, List.append_assoc]

theorem legacyPreimage_eq {tx : SatoshiTx} {curIndex : Nat} {curTxin : SatoshiTxin}
    (current : tx.txins[curIndex]? = some curTxin) (script : Bytes) :
    legacyPreimage tx curIndex script =
      absorbedPreimage tx (legacyHeaderBytes tx ++ emptyTxinsBytes (tx.txins.take curIndex))
        curTxin curIndex script := by
  rw [legacyPreimage, legacyTxinsBytes_eq current, absorbedPreimage]
  simp only [List.append_assoc]

/-- What the running context has absorbed when a call starts to hash its own input. -/
def absorbedBefore (tx : SatoshiTx) (rawtx : SatoshiRawtx) (curIndex : Nat) : Bytes :=
  rawtx.shaLegacy ++
    emptyTxinsBytes ((tx.txins.take curIndex).drop rawtx.lastHashedTxinIndex.toNat)

/-- The state a SIGHASH_ALL call leaves behind. -/
def afterCall (tx : SatoshiTx) (rawtx : SatoshiRawtx) (curIndex : Nat) : SatoshiRawtx :=
  { rawtx with
    shaLegacy := absorbedBefore tx rawtx curIndex
    lastHashedTxinIndex := (curIndex : Int) - 1 }

theorem satoshiTxinGetRedeemScripts_eq (txin : TxinState) :
    satoshiTxinGetRedeemScripts txin =
      if scriptCode txin = [] then none else some (varstrNew (scriptCode txin)) := by
  unfold satoshiTxinGetRedeemScripts scriptCode
  cases txin.redeemScripts with
  | none => simp
  | some scripts => simp

/-- A call with a script left hashes what was absorbed before it. -/
theorem satoshiUtxoGetDigest_all {crypto : CryptoBackend} {tx : SatoshiTx} {txin : TxinState}
    {rawtx : SatoshiRawtx} {curIndex : Nat} {curTxin : SatoshiTxin}
    (current : tx.txins[curIndex]? = some curTxin)
    (lastInRange : rawtx.lastHashedTxinIndex < tx.txins.length)
    (ordered : rawtx.lastHashedTxinIndex.toNat ≤ curIndex)
    (script : scriptCode txin ≠ []) :
    satoshiUtxoGetDigest crypto tx txin rawtx curIndex sighashAll =
      .ok (some (hash256 crypto (absorbedPreimage tx (absorbedBefore tx rawtx curIndex) curTxin
        curIndex (scriptCode txin))), afterCall tx rawtx curIndex) := by
  have plain : sighashAll &&& sighashAnyoneCanPay = 0 := by decide
  have masked : sighashAll &&& ~~~sighashAnyoneCanPay = sighashAll := by decide
  have restored : sighashAll ||| 0 = sighashAll := by decide
  unfold satoshiUtxoGetDigest
  simp only [current, Exec.ok_bind, Exec.assert_of lastInRange, Exec.assert_of ordered,
    satoshiTxinGetRedeemScripts_eq, if_neg script, Exec.deref_some, plain, masked, restored,
    ne_eq, not_true_eq_false, ↓reduceIte, legacyOutputsBytes]
  simp only [absorbedPreimage, absorbedBefore, afterCall, legacyTrailerBytes, List.append_assoc]
  rfl

/-- A call without a script left does not return. -/
theorem satoshiUtxoGetDigest_exhausted {crypto : CryptoBackend} {tx : SatoshiTx}
    {txin : TxinState} {rawtx : SatoshiRawtx} {curIndex : Nat} {hashType : UInt32}
    (script : scriptCode txin = []) (result : Option Uint256 × SatoshiRawtx) :
    satoshiUtxoGetDigest crypto tx txin rawtx curIndex hashType ≠ .ok result := by
  intro returns
  unfold satoshiUtxoGetDigest at returns
  cases current : tx.txins[curIndex]? with
  | none => simp [current] at returns
  | some curTxin =>
      simp only [current, Exec.ok_bind, Exec.bind_eq_ok] at returns
      obtain ⟨_, -, _, -, redeemScripts, left, -⟩ := returns
      rw [satoshiTxinGetRedeemScripts_eq, if_pos script] at left
      cases left

/-! ## Sequences of calls -/

/-- No input has been absorbed into the running context yet. -/
structure Unadvanced (tx : SatoshiTx) (rawtx : SatoshiRawtx) : Prop where
  sha : rawtx.shaLegacy = legacyHeaderBytes tx
  last : rawtx.lastHashedTxinIndex ≤ 0

theorem Unadvanced.of_attach {crypto : CryptoBackend} {tx : SatoshiTx} {rawtx : SatoshiRawtx}
    (attached : satoshiRawtxAttach crypto tx = .ok rawtx) : Unadvanced tx rawtx := by
  unfold satoshiRawtxAttach at attached
  split at attached
  · simp only [Exec.bind_eq_ok] at attached
    obtain ⟨_, -, _, -, returns⟩ := attached
    cases returns
    exact ⟨rfl, Int.le_refl 0⟩
  · simp only [Exec.bind_eq_ok] at attached
    obtain ⟨_, -, _, -, returns⟩ := attached
    cases returns
    exact ⟨rfl, Int.le_refl 0⟩

theorem Unadvanced.absorbedBefore_eq {tx : SatoshiTx} {rawtx : SatoshiRawtx}
    (fresh : Unadvanced tx rawtx) (curIndex : Nat) :
    absorbedBefore tx rawtx curIndex =
      legacyHeaderBytes tx ++ emptyTxinsBytes (tx.txins.take curIndex) := by
  rw [absorbedBefore, fresh.sha, Int.toNat_of_nonpos fresh.last, List.drop_zero]

/-- A call for the first input advances nothing. -/
theorem Unadvanced.afterCall_zero {tx : SatoshiTx} {rawtx : SatoshiRawtx}
    (fresh : Unadvanced tx rawtx) : Unadvanced tx (afterCall tx rawtx 0) where
  sha := by
    rw [afterCall, fresh.absorbedBefore_eq]
    simp [emptyTxinsBytes]
  last := by simp [afterCall]

/-- On an unadvanced context a call returns its uncached value. -/
theorem Unadvanced.call (crypto : CryptoBackend) {tx : SatoshiTx} {rawtx : SatoshiRawtx}
    {call : DigestCall} (fresh : Unadvanced tx rawtx) (inRange : call.index < tx.txins.length)
    (script : scriptCode call.txin ≠ []) :
    satoshiUtxoGetDigest crypto tx call.txin rawtx call.index sighashAll =
      .ok (some (call.uncached crypto tx), afterCall tx rawtx call.index) := by
  have current := List.getElem?_eq_getElem inRange
  have last := fresh.last
  rw [satoshiUtxoGetDigest_all current (by omega) (by omega) script, fresh.absorbedBefore_eq,
    ← legacyPreimage_eq current]
  rfl

/-- The bytes absorbed before input `curIndex` when the call before was the first and was
for input `previous`: the inputs from `previous - 1` on come twice. -/
def repeatedAbsorbed (tx : SatoshiTx) (previous curIndex : Nat) : Bytes :=
  legacyHeaderBytes tx ++ emptyTxinsBytes (tx.txins.take previous) ++
    emptyTxinsBytes ((tx.txins.take curIndex).drop (previous - 1))

theorem Unadvanced.absorbedBefore_afterCall {tx : SatoshiTx} {rawtx : SatoshiRawtx}
    (fresh : Unadvanced tx rawtx) (previous curIndex : Nat) :
    absorbedBefore tx (afterCall tx rawtx previous) curIndex =
      repeatedAbsorbed tx previous curIndex := by
  have last : ((previous : Int) - 1).toNat = previous - 1 := by omega
  rw [absorbedBefore, afterCall, fresh.absorbedBefore_eq, repeatedAbsorbed, last]

theorem emptyTxinsBytes_length (txins : List SatoshiTxin) :
    (emptyTxinsBytes txins).length = 41 * txins.length := by
  induction txins with
  | nil => rfl
  | cons txin txins inductionHypothesis =>
      have one : (rawTxinBytes txin varstrEmpty).length = 41 := by
        simp [rawTxinBytes, SatoshiOutpoint.bytes, SatoshiTxin.sequenceBytes, varstrEmpty,
          txin.outpoint.prevHash.property]
      rw [emptyTxinsBytes, List.flatMap_cons, List.length_append, one, List.length_cons,
        ← emptyTxinsBytes, inductionHypothesis]
      omega

/-- Unless the earlier call was for the first input, one input too many is absorbed. -/
theorem repeatedAbsorbed_length {tx : SatoshiTx} {previous curIndex : Nat}
    (positive : 0 < previous) (ordered : previous ≤ curIndex)
    (inRange : curIndex < tx.txins.length) :
    (repeatedAbsorbed tx previous curIndex).length =
      (legacyHeaderBytes tx ++ emptyTxinsBytes (tx.txins.take curIndex)).length + 41 := by
  simp only [repeatedAbsorbed, List.length_append, emptyTxinsBytes_length, List.length_take,
    List.length_drop]
  omega

/-- The hash of the preimage with repeated inputs, for a call after another one. -/
def repeatedPreimage (tx : SatoshiTx) (first second : DigestCall) (curTxin : SatoshiTxin) :
    Bytes :=
  absorbedPreimage tx (repeatedAbsorbed tx first.index second.index) curTxin second.index
    (scriptCode second.txin)

/-- Double SHA-256 does not collide on the preimages a sequence of calls meets. -/
def CollisionFree (crypto : CryptoBackend) (tx : SatoshiTx) (calls : List DigestCall) : Prop :=
  ∀ first ∈ calls, ∀ second ∈ calls, ∀ curTxin ∈ tx.txins[second.index]?,
    hash256 crypto (repeatedPreimage tx first second curTxin) = second.uncached crypto tx →
      repeatedPreimage tx first second curTxin =
        legacyPreimage tx second.index (scriptCode second.txin)

/-- After a call for a later input no call returns its uncached value. -/
theorem Unadvanced.not_digestsUncached {crypto : CryptoBackend} {tx : SatoshiTx}
    {rawtx : SatoshiRawtx} {first second : DigestCall} (calls : List DigestCall)
    (fresh : Unadvanced tx rawtx) (positive : 0 < first.index)
    (ordered : first.index ≤ second.index) (inRange : second.index < tx.txins.length)
    (collisionFree : ∀ curTxin ∈ tx.txins[second.index]?,
      hash256 crypto (repeatedPreimage tx first second curTxin) = second.uncached crypto tx →
        repeatedPreimage tx first second curTxin =
          legacyPreimage tx second.index (scriptCode second.txin)) :
    ¬ DigestsUncached crypto tx (afterCall tx rawtx first.index) (second :: calls) := by
  intro uncached
  obtain ⟨⟨digest, after⟩, returns, rest⟩ := Exec.bind_eq_ok.1 uncached
  obtain ⟨digests, -, same⟩ := Exec.bind_eq_ok.1 rest
  simp only [Exec.pure_eq, Exec.ok.injEq, List.map_cons, List.cons.injEq] at same
  by_cases script : scriptCode second.txin = []
  · exact satoshiUtxoGetDigest_exhausted script _ returns
  · have current := List.getElem?_eq_getElem inRange
    rw [satoshiUtxoGetDigest_all current (by simp [afterCall]; omega)
      (by simp [afterCall]; omega) script, fresh.absorbedBefore_afterCall] at returns
    cases returns
    have equal := collisionFree _ current (Option.some.inj same.1)
    have lengths := congrArg List.length equal
    rw [legacyPreimage_eq current, repeatedPreimage, absorbedPreimage, absorbedPreimage] at lengths
    simp only [List.length_append, repeatedAbsorbed_length positive ordered inRange] at lengths
    omega

/-- From an unadvanced context all calls return their uncached values exactly when every
script is non-empty and only the last call is for another input than the first one. -/
theorem Unadvanced.digestCalls_iff {crypto : CryptoBackend} {tx : SatoshiTx}
    {rawtx : SatoshiRawtx} {calls : List DigestCall} (fresh : Unadvanced tx rawtx)
    (inRange : ∀ call ∈ calls, call.index < tx.txins.length)
    (ordered : calls.Pairwise fun first second => first.index ≤ second.index)
    (collisionFree : CollisionFree crypto tx calls) :
    DigestsUncached crypto tx rawtx calls ↔
      (∀ call ∈ calls, scriptCode call.txin ≠ []) ∧
        ∀ call ∈ calls.dropLast, call.index = 0 := by
  induction calls generalizing rawtx with
  | nil => simp [DigestsUncached, digestCalls]
  | cons call calls inductionHypothesis =>
      by_cases script : scriptCode call.txin = []
      · constructor
        · intro uncached
          obtain ⟨result, returns, -⟩ := Exec.bind_eq_ok.1 uncached
          exact absurd returns (satoshiUtxoGetDigest_exhausted script result)
        · exact fun ⟨scripts, _⟩ => absurd script (scripts call List.mem_cons_self)
      · have first := fresh.call crypto (inRange call List.mem_cons_self) script
        have unfolded : DigestsUncached crypto tx rawtx (call :: calls) ↔
            DigestsUncached crypto tx (afterCall tx rawtx call.index) calls := by
          unfold DigestsUncached
          rw [digestCalls, first, Exec.ok_bind]
          simp only [Exec.bind_eq_ok, Exec.pure_eq, Exec.ok.injEq, List.map_cons,
            List.cons.injEq, true_and, exists_eq_right]
        rw [unfolded]
        obtain ⟨later, orderedRest⟩ := List.pairwise_cons.1 ordered
        cases calls with
        | nil => simp [DigestsUncached, digestCalls, script]
        | cons next calls =>
            rw [List.dropLast_cons_cons]
            by_cases zero : call.index = 0
            · rw [zero, inductionHypothesis fresh.afterCall_zero
                (fun other member => inRange other (List.mem_cons_of_mem _ member)) orderedRest
                (fun one oneMember other otherMember => collisionFree one
                  (List.mem_cons_of_mem _ oneMember) other (List.mem_cons_of_mem _ otherMember))]
              simp [script, zero]
            · have broken := fresh.not_digestsUncached calls
                (Nat.pos_of_ne_zero zero) (later next List.mem_cons_self)
                (inRange next (by simp))
                (collisionFree call List.mem_cons_self next (by simp))
              exact iff_of_false broken fun ⟨_, indices⟩ =>
                zero (indices call List.mem_cons_self)

/-- The exact non-decreasing sequences of calls on an attached transaction that return their
uncached values. -/
theorem digestsUncached_iff {crypto : CryptoBackend} {tx : SatoshiTx} {rawtx : SatoshiRawtx}
    {calls : List DigestCall} (attached : satoshiRawtxAttach crypto tx = .ok rawtx)
    (inRange : ∀ call ∈ calls, call.index < tx.txins.length)
    (ordered : calls.Pairwise fun first second => first.index ≤ second.index)
    (collisionFree : CollisionFree crypto tx calls) :
    DigestsUncached crypto tx rawtx calls ↔
      (∀ call ∈ calls, scriptCode call.txin ≠ []) ∧
        ∀ call ∈ calls.dropLast, call.index = 0 :=
  (Unadvanced.of_attach attached).digestCalls_iff inRange ordered collisionFree

/-- A legacy transaction with two inputs. -/
def twoInputTx : SatoshiTx where
  version := 1
  hasFlag := false
  flag := (0, 0)
  txins := [⟨⟨uint256Zero, 0⟩, .ofData [] Varstr.nil_small, 0xffffffff⟩,
    ⟨⟨uint256Zero, 1⟩, .ofData [] Varstr.nil_small, 0xffffffff⟩]
  txouts := [⟨1, .ofData [] Varstr.nil_small, 0⟩]
  witnesses := none
  lockTime := 0

/-- The record after `twoInputTx` is attached. -/
def twoInputRawtx : SatoshiRawtx where
  shaLegacy := legacyHeaderBytes twoInputTx
  shaSegwit := []
  lastHashedTxinIndex := 0
  txoutsHash := uint256Zero

/-- A digest call of a script with one word. -/
def sampleCall (index : Nat) : DigestCall := ⟨index, { redeemScripts := some [0xac] }⟩

instance (crypto : CryptoBackend) (tx : SatoshiTx) (rawtx : SatoshiRawtx)
    (calls : List DigestCall) : Decidable (DigestsUncached crypto tx rawtx calls) :=
  inferInstanceAs (Decidable (_ = _))

instance (crypto : CryptoBackend) (tx : SatoshiTx) (calls : List DigestCall) :
    Decidable (CollisionFree crypto tx calls) := by
  unfold CollisionFree
  infer_instance

/-- One call for each input, in order. -/
theorem digestsUncached_iff_twoInputTx :
    DigestsUncached sampleCrypto twoInputTx twoInputRawtx [sampleCall 0, sampleCall 1] ↔
      (∀ call ∈ [sampleCall 0, sampleCall 1], scriptCode call.txin ≠ []) ∧
        ∀ call ∈ [sampleCall 0, sampleCall 1].dropLast, call.index = 0 :=
  digestsUncached_iff (by decide) (by decide) (by decide) (by decide +kernel)

/-- A second call for the second input hashes the first one twice. -/
theorem repeatedCall_not_digestsUncached :
    satoshiRawtxAttach sampleCrypto twoInputTx = .ok twoInputRawtx ∧
      ¬ DigestsUncached sampleCrypto twoInputTx twoInputRawtx [sampleCall 1, sampleCall 1] := by
  decide +kernel

end BitcoinClib.Tx
