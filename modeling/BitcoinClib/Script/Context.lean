import BitcoinClib.Script.Relation
import BitcoinClib.Tx.LegacyDigest

/-!
Contract: one `satoshi_script` context that verifies several inputs of a transaction.

Owns:
- `ScriptContext`, what survives from one input to the next: the main stack, the
  conditional depth, the digest cache, and the fields of every input and output;
- `set_txin_info` and the loop body of `verify_tx`;
- `InputIndependent`, that no input changes the verdict on another, and a condition on
  the context before each input under which a run has this property.

`set_txin_info` selects an input and an output and resets nothing. `verify_tx` asserts
that a script parses in full; here a script that does not is a rejection, so that runs
go on after a rejected input.
-/

namespace BitcoinClib.Script

open BitcoinClib.Lib
open BitcoinClib.Lib.Exec
open BitcoinClib.Types
open BitcoinClib.Crypto
open BitcoinClib.Tx

/-! ## Contexts -/

/-- The transaction and the outputs it spends, one for each input. -/
structure TxSpend where
  crypto : CryptoBackend
  tx : SatoshiTx
  utxoes : List SatoshiTxout

/-- `satoshi_script_t` and the fields that parsing writes, of all inputs and outputs. -/
structure ScriptContext where
  mainStack : ScriptStack
  ifStatementDepth : Int
  rawtx : SatoshiRawtx
  txins : List TxinState
  utxoFlags : List UInt32
deriving DecidableEq, Repr

/-- `satoshi_script_init` and `scripts_attach_tx` for a transaction that was just read. -/
def scriptsAttachTx (spend : TxSpend) : Exec ScriptContext := do
  let rawtx ← satoshiRawtxAttach spend.crypto spend.tx
  return {
    mainStack := satoshiScriptStackInit
    ifStatementDepth := 0
    rawtx := rawtx
    txins := List.replicate spend.tx.txins.length {}
    utxoFlags := spend.utxoes.map (·.flags) }

/-- What is fixed for the words while an input is selected. -/
def TxSpend.env (spend : TxSpend) (index : Nat) (utxo : SatoshiTxout) : ScriptEnv :=
  ⟨spend.crypto, spend.tx, index, utxo, none⟩

/-- `scripts_set_txin_info`: the selected output, and what the words see and change. -/
def scriptsSetTxinInfo (spend : TxSpend) (context : ScriptContext) (index : Nat) :
    Exec (SatoshiTxout × ScriptState) := do
  Exec.assert (index < spend.tx.txins.length)
  match spend.utxoes[index]?, context.txins[index]?, context.utxoFlags[index]? with
  | some utxo, some txin, some flags =>
      return (utxo,
        ⟨context.mainStack, context.ifStatementDepth, txin, flags, context.rawtx⟩)
  | _, _, _ => Exec.fault .bounds

/-- The fields of the selected input and output are written in place. -/
def ScriptContext.store (context : ScriptContext) (index : Nat) (state : ScriptState) :
    ScriptContext where
  mainStack := state.mainStack
  ifStatementDepth := state.ifStatementDepth
  rawtx := state.rawtx
  txins := context.txins.set index state.txin
  utxoFlags := context.utxoFlags.set index state.utxoFlags

/-- The end of the loop body of `verify_tx`: the output script, unless it is empty, and the
verification. -/
def verifyTxout (env : ScriptEnv) (state : ScriptState) : Exec (Bool × ScriptState) :=
  let script := env.utxo.scripts.data
  if 0 < script.length then do
    let (cb, state) ← scriptsParse env .txout script state
    if cb ≠ script.length then return (false, state)
    else
      let (rc, state) ← scriptsVerify state
      return (decide (rc = 0), state)
  else do
    let (rc, state) ← scriptsVerify state
    return (decide (rc = 0), state)

/-- The loop body of `verify_tx` after `set_txin_info`. -/
def verifyScripts (env : ScriptEnv) (scriptSig : Bytes) (state : ScriptState) :
    Exec (Bool × ScriptState) :=
  if 0 < scriptSig.length then do
    let (cb, state) ← scriptsParse env .txin scriptSig state
    if cb ≠ scriptSig.length then return (false, state)
    else verifyTxout env state
  else if env.tx.hasFlag = false ∨ env.tx.witnesses = none then
    -- `continue`: such an input is not verified
    return (true, state)
  else verifyTxout env state

/-- The loop body of `verify_tx`. -/
def verifyTxin (spend : TxSpend) (context : ScriptContext) (index : Nat) :
    Exec (Bool × ScriptContext) := do
  let (utxo, state) ← scriptsSetTxinInfo spend context index
  let txin ← Exec.deref spend.tx.txins[index]?
  let (accepted, state) ← verifyScripts (spend.env index utxo) txin.scripts.data state
  return (accepted, context.store index state)

/-- Inputs verified one after the other on one context. -/
def verifyTxins (spend : TxSpend) : List Nat → ScriptContext → Exec (List Bool × ScriptContext)
  | [], context => .ok ([], context)
  | index :: order, context => do
      let (verdict, context) ← verifyTxin spend context index
      let (verdicts, context) ← verifyTxins spend order context
      return (verdict :: verdicts, context)

/-- Accepted, rejected, or stopped. -/
def verdictOf (run : Exec (Bool × ScriptContext)) : Exec Bool := do
  let (verdict, _) ← run
  return verdict

/-- Each input of the order gets the verdict it gets alone on a context of its own. -/
def InputIndependent (spend : TxSpend) (order : List Nat) : Prop :=
  ∀ earlier index later, order = earlier ++ index :: later →
    ∀ attached verdicts context, scriptsAttachTx spend = .ok attached →
      verifyTxins spend earlier attached = .ok (verdicts, context) →
      verdictOf (verifyTxin spend context index) = verdictOf (verifyTxin spend attached index)

/-! ## Clean contexts -/

/-- The selected output is declared as a witness output. -/
def IsSegwitUtxo (spend : TxSpend) (index : Nat) : Prop :=
  ∃ utxo, spend.utxoes[index]? = some utxo ∧ utxo.flags &&& txoutTypeMasks = txoutTypeSegwit

/-- Nothing that the next input reads was left behind: the stack is empty and has not grown, no
conditional is open, and no input was absorbed into the running digest, unless the next output
is a witness output and does not use it. -/
structure CleanFor (spend : TxSpend) (context : ScriptContext) (index : Nat) : Prop where
  stack : context.mainStack = satoshiScriptStackInit
  depth : context.ifStatementDepth = 0
  digests : IsSegwitUtxo spend index ∨ Unadvanced spend.tx context.rawtx

/-- Every input of the run starts on a clean context. -/
def CleanRun (spend : TxSpend) (order : List Nat) : Prop :=
  ∀ earlier index later, order = earlier ++ index :: later →
    ∀ attached verdicts context, scriptsAttachTx spend = .ok attached →
      verifyTxins spend earlier attached = .ok (verdicts, context) →
      CleanFor spend context index

/-! ## Digest caches -/

/-- Two caches that the digests of an output with these flags cannot tell apart. -/
structure SameDigests (flags : UInt32) (left right : SatoshiRawtx) : Prop where
  shaSegwit : left.shaSegwit = right.shaSegwit
  txoutsHash : left.txoutsHash = right.txoutsHash
  legacy : flags &&& txoutTypeMasks = txoutTypeSegwit ∨
    (left.shaLegacy = right.shaLegacy ∧
      left.lastHashedTxinIndex.toNat = right.lastHashedTxinIndex.toNat)

theorem satoshiUtxoGetDigest_related (crypto : CryptoBackend) (tx : SatoshiTx) (txin : TxinState)
    {left right : SatoshiRawtx} (curIndex : Nat) (hashType flags : UInt32)
    (segwit : left.shaSegwit = right.shaSegwit) (outputs : left.txoutsHash = right.txoutsHash)
    (absorbed : left.shaLegacy = right.shaLegacy)
    (last : left.lastHashedTxinIndex.toNat = right.lastHashedTxinIndex.toNat) :
    Related (StepRelated (SameDigests flags))
      (satoshiUtxoGetDigest crypto tx txin left curIndex hashType)
      (satoshiUtxoGetDigest crypto tx txin right curIndex hashType) := by
  simp only [satoshiUtxoGetDigest]
  cases current : tx.txins[curIndex]? with
  | none => rfl
  | some curTxin =>
      have inside : curIndex < tx.txins.length := (List.getElem?_eq_some_iff.1 current).1
      have sameBound : (left.lastHashedTxinIndex < tx.txins.length) =
          (right.lastHashedTxinIndex < tx.txins.length) := by
        apply propext
        omega
      simp only [Exec.ok_bind, sameBound, last]
      apply Related.same_bind
      intro _ _
      apply Related.same_bind
      intro _ _
      apply Related.same_bind
      intro redeemScripts _
      by_cases anyone : hashType &&& sighashAnyoneCanPay ≠ 0
      · simp only [if_pos anyone]
        cases legacyOutputsBytes tx curIndex (hashType &&& ~~~sighashAnyoneCanPay) with
        | none => exact ⟨rfl, segwit, outputs, .inr ⟨absorbed, rfl⟩⟩
        | some bytes => exact ⟨rfl, segwit, outputs, .inr ⟨absorbed, rfl⟩⟩
      · simp only [if_neg anyone, absorbed]
        cases legacyOutputsBytes tx curIndex (hashType &&& ~~~sighashAnyoneCanPay) with
        | none => exact ⟨rfl, segwit, outputs, .inr ⟨rfl, rfl⟩⟩
        | some bytes => exact ⟨rfl, segwit, outputs, .inr ⟨rfl, rfl⟩⟩

theorem segwitUtxoGetDigest_related (crypto : CryptoBackend) (tx : SatoshiTx) (txin : TxinState)
    {left right : SatoshiRawtx} (curIndex : Nat) (hashType flags : UInt32) (utxo : SatoshiTxout)
    (same : SameDigests flags left right) :
    Related (StepRelated (SameDigests flags))
      (segwitUtxoGetDigest crypto tx txin left curIndex hashType utxo)
      (segwitUtxoGetDigest crypto tx txin right curIndex hashType utxo) := by
  simp only [segwitUtxoGetDigest, segwitCommonBytes, segwitOutputsBytes, same.shaSegwit,
    same.txoutsHash]
  cases tx.txins[curIndex]? with
  | none => rfl
  | some curTxin =>
      cases satoshiTxinGetRedeemScripts txin with
      | none => rfl
      | some redeemScripts =>
          simp only [Exec.ok_bind]
          apply Related.same_bind
          intro outputs _
          exact ⟨rfl, same⟩

theorem satoshiRawtxGetDigest_related (crypto : CryptoBackend) (tx : SatoshiTx)
    (txin : TxinState) {left right : SatoshiRawtx} (curIndex : Nat) (hashType flags : UInt32)
    (utxo : SatoshiTxout) (same : SameDigests flags left right) :
    Related (StepRelated (SameDigests flags))
      (satoshiRawtxGetDigest crypto tx txin left curIndex hashType utxo flags)
      (satoshiRawtxGetDigest crypto tx txin right curIndex hashType utxo flags) := by
  rw [satoshiRawtxGetDigest, satoshiRawtxGetDigest]
  split_ifs with witness legacy
  · exact segwitUtxoGetDigest_related crypto tx txin curIndex hashType flags utxo same
  · rcases same.legacy with segwit | ⟨absorbed, last⟩
    · exact absurd (Or.inr segwit) witness
    · exact satoshiUtxoGetDigest_related crypto tx txin curIndex hashType flags same.shaSegwit
        same.txoutsHash absorbed last
  · exact ⟨rfl, same⟩

/-! ## Two runs on one input -/

/-- States that differ in their digest caches only, and there only in what the flags let no
digest see. -/
structure SameButCache (left right : ScriptState) : Prop where
  rest : left = { right with rawtx := left.rawtx }
  digests : SameDigests right.utxoFlags left.rawtx right.rawtx

/-- The mark of a nested program leaves the type of an output alone. -/
theorem nested_masks (flags : UInt32) :
    (flags ||| txoutTypeP2shSegwitFlags) &&& txoutTypeMasks = flags &&& txoutTypeMasks := by
  apply UInt32.toBitVec_inj.1
  rw [UInt32.toBitVec_and, UInt32.toBitVec_or, BitVec.and_or_distrib_right, UInt32.toBitVec_and]
  exact BitVec.or_zero

theorem sameButCache_relation (env : ScriptEnv) : ParseRelation env SameButCache where
  mainStack := fun related => by rw [related.rest]
  depth := fun related => by rw [related.rest]
  txin := fun related => by rw [related.rest]
  withStack := fun related stack => ⟨by rw [related.rest], related.digests⟩
  withDepth := fun related depth => ⟨by rw [related.rest], related.digests⟩
  withStartPos := fun related position => ⟨by rw [related.rest], related.digests⟩
  withTxin := fun related txin => ⟨by rw [related.rest], related.digests⟩
  withNested := fun related => by
    refine ⟨by rw [related.rest], related.digests.shaSegwit, related.digests.txoutsHash, ?_⟩
    rw [nested_masks]
    exact related.digests.legacy
  digest := by
    rintro left right ⟨rest, digests⟩ hashType
    rw [getDigest, getDigest, rest]
    apply Related.bind (satoshiRawtxGetDigest_related _ _ _ _ _ _ _ digests)
    rintro ⟨digest, rawtx⟩ ⟨digest', rawtx'⟩ ⟨same, cached⟩
    exact ⟨same, rfl, cached⟩

section TwoRuns

variable {env : ScriptEnv} {states : ScriptState → ScriptState → Prop}
  {left right : ScriptState}

theorem verifyTxout_related (relation : CallRelation env states)
    (related : states left right) :
    Related (StepRelated states) (verifyTxout env left) (verifyTxout env right) := by
  have verify : ∀ {left right : ScriptState}, states left right →
      Related (StepRelated states)
        (do
          let (rc, state) ← scriptsVerify left
          return (decide (rc = 0), state))
        (do
          let (rc, state) ← scriptsVerify right
          return (decide (rc = 0), state)) := by
    intro left right related
    apply Related.bind (scriptsVerify_related relation.toStackRelation related)
    rintro ⟨rc, final⟩ ⟨rc', final'⟩ ⟨same, finalRelated⟩
    change rc = rc' at same
    subst same
    exact ⟨rfl, finalRelated⟩
  simp only [verifyTxout]
  by_cases present : 0 < env.utxo.scripts.data.length
  · simp only [if_pos present]
    apply Related.bind (scriptsParse_related relation .txout _ related)
    rintro ⟨cb, run⟩ ⟨cb', run'⟩ ⟨same, runRelated⟩
    change cb = cb' at same
    subst same
    by_cases short : cb ≠ env.utxo.scripts.data.length
    · simp only [if_pos short]
      exact ⟨rfl, runRelated⟩
    · simp only [if_neg short]
      exact verify runRelated
  · simp only [if_neg present]
    exact verify related

theorem verifyScripts_related (relation : CallRelation env states) (scriptSig : Bytes)
    (related : states left right) :
    Related (StepRelated states) (verifyScripts env scriptSig left)
      (verifyScripts env scriptSig right) := by
  simp only [verifyScripts]
  by_cases present : 0 < scriptSig.length
  · simp only [if_pos present]
    apply Related.bind (scriptsParse_related relation .txin _ related)
    rintro ⟨cb, run⟩ ⟨cb', run'⟩ ⟨same, runRelated⟩
    change cb = cb' at same
    subst same
    by_cases short : cb ≠ scriptSig.length
    · simp only [if_pos short]
      exact ⟨rfl, runRelated⟩
    · simp only [if_neg short]
      exact verifyTxout_related relation runRelated
  · simp only [if_neg present]
    by_cases unverified : env.tx.hasFlag = false ∨ env.tx.witnesses = none
    · simp only [if_pos unverified]
      exact ⟨rfl, related⟩
    · simp only [if_neg unverified]
      exact verifyTxout_related relation related

end TwoRuns

/-! ## Runs -/

/-- The parts of a digest cache that are prepared once. -/
structure SamePrepared (start rawtx : SatoshiRawtx) : Prop where
  shaSegwit : rawtx.shaSegwit = start.shaSegwit
  txoutsHash : rawtx.txoutsHash = start.txoutsHash

theorem satoshiRawtxGetDigest_prepared {crypto : CryptoBackend} {tx : SatoshiTx}
    {txin : TxinState} {rawtx after : SatoshiRawtx} {curIndex : Nat} {hashType flags : UInt32}
    {utxo : SatoshiTxout} {digest : Option Uint256}
    (returns : satoshiRawtxGetDigest crypto tx txin rawtx curIndex hashType utxo flags =
      .ok (digest, after)) : SamePrepared rawtx after := by
  rw [satoshiRawtxGetDigest] at returns
  split_ifs at returns
  · simp only [segwitUtxoGetDigest] at returns
    cases current : tx.txins[curIndex]? with
    | none => simp [current] at returns
    | some curTxin =>
        cases script : satoshiTxinGetRedeemScripts txin with
        | none => simp [current, script] at returns
        | some redeemScripts =>
            simp only [current, script, Exec.ok_bind, Exec.bind_eq_ok] at returns
            obtain ⟨_, -, returns⟩ := returns
            cases returns
            exact ⟨rfl, rfl⟩
  · simp only [satoshiUtxoGetDigest] at returns
    cases current : tx.txins[curIndex]? with
    | none => simp [current] at returns
    | some curTxin =>
        simp only [current, Exec.ok_bind, Exec.bind_eq_ok] at returns
        obtain ⟨_, -, _, -, redeemScripts, -, returns⟩ := returns
        split at returns <;> cases returns <;> split_ifs <;> exact ⟨rfl, rfl⟩
  · cases returns
    exact ⟨rfl, rfl⟩

/-- The prepared parts as an invariant of a single run. -/
theorem samePrepared_relation (env : ScriptEnv) (start : SatoshiRawtx) :
    ParseRelation env fun left right => left = right ∧ SamePrepared start left.rawtx where
  mainStack := fun related => congrArg _ related.1
  depth := fun related => congrArg _ related.1
  txin := fun related => congrArg _ related.1
  withStack := fun related stack => ⟨by rw [related.1], related.2⟩
  withDepth := fun related depth => ⟨by rw [related.1], related.2⟩
  withStartPos := fun related position => ⟨by rw [related.1], related.2⟩
  withTxin := fun related txin => ⟨by rw [related.1], related.2⟩
  withNested := fun related => ⟨by rw [related.1], related.2⟩
  digest := by
    rintro left right ⟨rfl, prepared⟩ hashType
    cases digests : getDigest env left hashType with
    | ok result =>
        obtain ⟨⟨digest, rawtx⟩, called, returns⟩ := Exec.bind_eq_ok.1 digests
        have kept := satoshiRawtxGetDigest_prepared called
        cases returns
        exact ⟨rfl, rfl, kept.shaSegwit.trans prepared.shaSegwit,
          kept.txoutsHash.trans prepared.txoutsHash⟩
    | fault cause => rfl
    | timeout => trivial

/-- What one input leaves of the context: the prepared digests, and the fields of all other
inputs and outputs. -/
theorem verifyTxin_frame {spend : TxSpend} {context after : ScriptContext} {index : Nat}
    {verdict : Bool} (returns : verifyTxin spend context index = .ok (verdict, after)) :
    SamePrepared context.rawtx after.rawtx ∧
      ∀ other, other ≠ index → after.txins[other]? = context.txins[other]? ∧
        after.utxoFlags[other]? = context.utxoFlags[other]? := by
  obtain ⟨⟨utxo, state⟩, selected, returns⟩ := Exec.bind_eq_ok.1 returns
  obtain ⟨txin, -, returns⟩ := Exec.bind_eq_ok.1 returns
  obtain ⟨⟨accepted, final⟩, verified, returns⟩ := Exec.bind_eq_ok.1 returns
  cases returns
  have rawtx : state.rawtx = context.rawtx := by
    obtain ⟨_, -, selected⟩ := Exec.bind_eq_ok.1 selected
    split at selected
    · cases selected
      rfl
    · cases selected
  have start : state = state ∧ SamePrepared context.rawtx state.rawtx :=
    ⟨rfl, by rw [rawtx], by rw [rawtx]⟩
  have run := verifyScripts_related
    (samePrepared_relation (spend.env index utxo) context.rawtx).toCallRelation
    txin.scripts.data start
  rw [verified] at run
  refine ⟨run.2.2, fun other different => ⟨?_, ?_⟩⟩
  · exact List.getElem?_set_ne different.symm
  · exact List.getElem?_set_ne different.symm

/-- What a run leaves of the context, for an input it has not verified. -/
theorem verifyTxins_frame {spend : TxSpend} {order : List Nat} {context after : ScriptContext}
    {verdicts : List Bool} (returns : verifyTxins spend order context = .ok (verdicts, after)) :
    SamePrepared context.rawtx after.rawtx ∧
      ∀ other, other ∉ order → after.txins[other]? = context.txins[other]? ∧
        after.utxoFlags[other]? = context.utxoFlags[other]? := by
  induction order generalizing context verdicts with
  | nil =>
      cases returns
      exact ⟨⟨rfl, rfl⟩, fun _ _ => ⟨rfl, rfl⟩⟩
  | cons index order inductionHypothesis =>
      obtain ⟨⟨verdict, next⟩, first, returns⟩ := Exec.bind_eq_ok.1 returns
      obtain ⟨⟨rest, final⟩, run, returns⟩ := Exec.bind_eq_ok.1 returns
      cases returns
      obtain ⟨preparedFirst, keptFirst⟩ := verifyTxin_frame first
      obtain ⟨prepared, kept⟩ := inductionHypothesis run
      refine ⟨⟨prepared.shaSegwit.trans preparedFirst.shaSegwit,
        prepared.txoutsHash.trans preparedFirst.txoutsHash⟩, fun other untouched => ?_⟩
      obtain ⟨different, later⟩ := not_or.1 fun member =>
        untouched (List.mem_cons.2 member)
      exact ⟨(kept other later).1.trans (keptFirst other different).1,
        (kept other later).2.trans (keptFirst other different).2⟩

/-- On a clean context an input gets the verdict it gets alone. -/
theorem verdictOf_clean {spend : TxSpend} {attached context : ScriptContext} {index : Nat}
    (start : scriptsAttachTx spend = .ok attached)
    (clean : CleanFor spend context index)
    (prepared : SamePrepared attached.rawtx context.rawtx)
    (txins : context.txins[index]? = attached.txins[index]?)
    (flags : context.utxoFlags[index]? = attached.utxoFlags[index]?) :
    verdictOf (verifyTxin spend context index) = verdictOf (verifyTxin spend attached index) := by
  obtain ⟨rawtx, attachedRawtx, built⟩ := Exec.bind_eq_ok.1 start
  cases built
  have unhashed := Unadvanced.of_attach attachedRawtx
  have cached : ∀ utxo, spend.utxoes[index]? = some utxo →
      SameDigests utxo.flags context.rawtx rawtx := by
    intro utxo selected
    refine ⟨prepared.shaSegwit, prepared.txoutsHash, ?_⟩
    rcases clean.digests with ⟨utxo', selected', segwit⟩ | unadvanced
    · rw [selected] at selected'
      cases selected'
      exact .inl segwit
    · refine .inr ⟨unadvanced.sha.trans unhashed.sha.symm, ?_⟩
      rw [Int.toNat_of_nonpos unadvanced.last, Int.toNat_of_nonpos unhashed.last]
  simp only [verdictOf, verifyTxin, scriptsSetTxinInfo, txins, flags, clean.stack, clean.depth,
    bind_assoc]
  cases Exec.assert (index < spend.tx.txins.length) with
  | fault cause => rfl
  | timeout => rfl
  | ok _ =>
      simp only [Exec.ok_bind, List.getElem?_map]
      cases selected : spend.utxoes[index]? with
      | none => rfl
      | some utxo =>
          cases (List.replicate spend.tx.txins.length ({} : TxinState))[index]? with
          | none => rfl
          | some txin =>
              simp only [Option.map_some, Exec.pure_eq, Exec.ok_bind]
              cases spend.tx.txins[index]? with
              | none => rfl
              | some input =>
                  simp only [Exec.deref_some, Exec.ok_bind]
                  have related : SameButCache
                      ⟨satoshiScriptStackInit, 0, txin, utxo.flags, context.rawtx⟩
                      ⟨satoshiScriptStackInit, 0, txin, utxo.flags, rawtx⟩ :=
                    ⟨rfl, cached utxo selected⟩
                  exact (verifyScripts_related
                    (sameButCache_relation (spend.env index utxo)).toCallRelation
                    input.scripts.data related).observe pure

/-- In a run whose inputs all start on a clean context no input changes the verdict on another. -/
theorem inputIndependent_of_cleanRun (spend : TxSpend) {order : List Nat} (distinct : order.Nodup)
    (clean : CleanRun spend order) : InputIndependent spend order := by
  intro earlier index later split attached verdicts context start run
  have unvisited : index ∉ earlier := by
    rw [split] at distinct
    exact fun member =>
      (List.nodup_append.1 distinct).2.2 index member index List.mem_cons_self rfl
  obtain ⟨prepared, kept⟩ := verifyTxins_frame run
  exact verdictOf_clean start (clean earlier index later split attached verdicts context start run)
    prepared (kept index unvisited).1 (kept index unvisited).2

/-- Two inputs that push one byte, and the scripts of the outputs they spend. -/
def pairSpend (first second : Bytes) (small : first.length < 2 ^ 64 ∧ second.length < 2 ^ 64) :
    TxSpend where
  crypto := sampleCrypto
  tx := { sampleTx with txins :=
    [⟨⟨uint256Zero, 0⟩, .ofData [1, 0xaa] (by decide), 0xffffffff⟩,
      ⟨⟨uint256Zero, 1⟩, .ofData [1, 0xaa] (by decide), 0xffffffff⟩] }
  utxoes := [⟨1, .ofData first small.1, txoutTypeLegacy⟩,
    ⟨1, .ofData second small.2, txoutTypeLegacy⟩]

/-- Both outputs are `OP_DUP OP_EQUAL` and leave nothing but the verdict. -/
def cleanSpend : TxSpend := pairSpend [0x76, 0x87] [0x76, 0x87] (by decide)

theorem cleanSpend_cleanRun : CleanRun cleanSpend [0, 1] := by
  rintro (_ | ⟨first, _ | ⟨second, earlier⟩⟩) index later split attached verdicts context start run
  · cases split
    cases start
    cases run
    exact ⟨rfl, rfl, .inr ⟨rfl, Int.le_refl 0⟩⟩
  · cases split
    cases start
    cases run
    exact ⟨rfl, rfl, .inr ⟨rfl, Int.le_refl 0⟩⟩
  · simp at split

theorem inputIndependent_cleanSpend : InputIndependent cleanSpend [0, 1] :=
  inputIndependent_of_cleanRun cleanSpend (by decide) cleanSpend_cleanRun

/-- The outputs are `OP_1` and `OP_EQUAL`: the byte that the first input leaves under its verdict
is compared by the second. -/
def leftoverSpend : TxSpend := pairSpend [0x51] [0x87] (by decide)

theorem leftoverItem_not_inputIndependent : ¬ InputIndependent leftoverSpend [0, 1] := by
  intro independent
  have same := independent [0] 1 [] rfl _ _ _ rfl rfl
  exact absurd same (by decide)

end BitcoinClib.Script
