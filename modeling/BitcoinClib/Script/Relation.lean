import BitcoinClib.Lib.Related
import BitcoinClib.Script.Parse

/-!
Contract: the interpreter on two states at once.

Owns:
- `ScriptRelation`, a relation on script states that survives pushes, pops, changes
  of the conditional depth and of the script start, and digest calls;
- that every word, and every run of the opcode loop, keeps such a relation and has
  one and the same visible outcome on related states.

A word reads the stack, the depth and the fields of the selected input, and reaches
everything else through `rawtx->get_digest` only. The induction over the opcode loop
is done once, here, for every relation.
-/

namespace BitcoinClib.Script

open BitcoinClib.Lib
open BitcoinClib.Lib.Exec
open BitcoinClib.Types
open BitcoinClib.Crypto
open BitcoinClib.Tx

/-- A relation on script states that the interpreter cannot leave. -/
structure ScriptRelation (env : ScriptEnv) (states : ScriptState → ScriptState → Prop) :
    Prop where
  mainStack : ∀ {left right}, states left right → left.mainStack = right.mainStack
  depth : ∀ {left right}, states left right → left.ifStatementDepth = right.ifStatementDepth
  txin : ∀ {left right}, states left right → left.txin = right.txin
  withStack : ∀ {left right}, states left right → ∀ stack,
    states { left with mainStack := stack } { right with mainStack := stack }
  withDepth : ∀ {left right}, states left right → ∀ depth,
    states { left with ifStatementDepth := depth } { right with ifStatementDepth := depth }
  withStartPos : ∀ {left right}, states left right → ∀ position,
    states { left with txin := { left.txin with redeemScriptsStartPos := position } }
      { right with txin := { right.txin with redeemScriptsStartPos := position } }
  digest : ∀ {left right}, states left right → ∀ hashType,
    Related (StepRelated states) (getDigest env left hashType) (getDigest env right hashType)

/-! ## Weaker relations -/

/-- An item that one word can push on the stack of a state: a constant, data, a hash, or a
copy of the top. -/
inductive Produced (state : ScriptState) : ScriptData → Prop
  | boolean (value : Bool) : Produced state (satoshiScriptDataNewBoolean value)
  | small (value : UInt8) (positive : 1 ≤ value) (bounded : value ≤ 16) :
      Produced state (satoshiScriptDataNewUint8 value)
  | data (data : Bytes) : Produced state (satoshiScriptDataNewPtr data)
  | hash256 (hash : Uint256) : Produced state (satoshiScriptDataNewHash256 hash)
  | hash160 (hash : Uint160) : Produced state (satoshiScriptDataNewHash160 hash)
  | copy {sdata copy : ScriptData} {rest : List (Option ScriptData)}
      (top : state.items = some sdata :: rest)
      (cloned : satoshiScriptDataClone sdata = .ok copy) : Produced state copy

/-- A relation that the words outside conditionals, other than `OP_CODESEPARATOR`, cannot
leave. -/
structure StackRelation (env : ScriptEnv) (states : ScriptState → ScriptState → Prop) : Prop where
  mainStack : ∀ {left right}, states left right → left.mainStack = right.mainStack
  txin : ∀ {left right}, states left right → left.txin = right.txin
  dropTop : ∀ {left right}, states left right → states left.dropTop right.dropTop
  push : ∀ {left right sdata}, states left right → Produced left sdata →
    states (left.push sdata) (right.push sdata)
  digest : ∀ {left right}, states left right → ∀ hashType,
    Related (StepRelated states) (getDigest env left hashType) (getDigest env right hashType)

/-- A relation that the words outside conditionals cannot leave. -/
structure WordRelation (env : ScriptEnv) (states : ScriptState → ScriptState → Prop) : Prop
    extends StackRelation env states where
  withStartPos : ∀ {left right}, states left right → ∀ position,
    states { left with txin := { left.txin with redeemScriptsStartPos := position } }
      { right with txin := { right.txin with redeemScriptsStartPos := position } }

/-- A relation that the opcode loop cannot leave. -/
structure RunRelation (env : ScriptEnv) (states : ScriptState → ScriptState → Prop) : Prop
    extends WordRelation env states where
  depth : ∀ {left right}, states left right → left.ifStatementDepth = right.ifStatementDepth
  withDepth : ∀ {left right}, states left right → ∀ depth,
    states { left with ifStatementDepth := depth } { right with ifStatementDepth := depth }

theorem hashItem_produced {crypto : CryptoBackend} {opcode : ScriptOpcode} {data : Bytes}
    {hash : ScriptData} (hashed : hashItem crypto opcode data = some hash) (state : ScriptState) :
    Produced state hash := by
  unfold hashItem at hashed
  split at hashed
  · cases hashed
    exact .hash160 _
  · cases hashed
    exact .hash256 _
  · cases hashed
    exact .hash160 _
  · cases hashed
    exact .hash256 _
  · cases hashed

section Words

variable {env : ScriptEnv} {states : ScriptState → ScriptState → Prop}
  {left right : ScriptState}

namespace ScriptRelation

theorem push (relation : ScriptRelation env states) (related : states left right)
    (sdata : ScriptData) : states (left.push sdata) (right.push sdata) := by
  have pushed := relation.withStack related (stackPush right.mainStack sdata)
  rw [ScriptState.push, relation.mainStack related]
  exact pushed

theorem dropTop (relation : ScriptRelation env states) (related : states left right) :
    states left.dropTop right.dropTop := by
  have popped := relation.withStack related (stackPop right.mainStack).2
  have same : left.dropTop = { left with mainStack := (stackPop right.mainStack).2 } := by
    rw [← relation.mainStack related]
    rfl
  rw [same]
  exact popped

theorem items (relation : ScriptRelation env states) (related : states left right) :
    left.items = right.items := by
  rw [ScriptState.items, relation.mainStack related]
  rfl

theorem toRunRelation (relation : ScriptRelation env states) : RunRelation env states where
  mainStack := relation.mainStack
  txin := relation.txin
  dropTop := relation.dropTop
  push := fun related _ => relation.push related _
  withStartPos := relation.withStartPos
  digest := relation.digest
  depth := relation.depth
  withDepth := relation.withDepth

end ScriptRelation

theorem StackRelation.items (relation : StackRelation env states) (related : states left right) :
    left.items = right.items := by
  rw [ScriptState.items, relation.mainStack related]
  rfl

theorem parseOpCodeseparator_related (relation : WordRelation env states)
    (related : states left right) (origin : Option Nat) :
    Related (StepRelated states) (parseOpCodeseparator env origin left)
      (parseOpCodeseparator env origin right) := by
  rw [parseOpCodeseparator, parseOpCodeseparator, relation.txin related]
  by_cases outside : env.tx.txins.length ≤ env.txinIndex
  · rw [if_pos outside, if_pos outside]
    exact ⟨rfl, related⟩
  · rw [if_neg outside, if_neg outside]
    cases right.txin.redeemScripts with
    | none => exact ⟨rfl, related⟩
    | some redeemScripts =>
        cases origin with
        | none => rfl
        | some position =>
            apply Related.same_bind
            intro _ _
            refine ⟨rfl, ?_⟩
            have moved := relation.withStartPos related position
            rw [relation.txin related] at moved
            exact moved

variable (relation : StackRelation env states) (related : states left right)

include relation related

theorem scriptsVerify_related :
    Related (StepRelated states) (scriptsVerify left) (scriptsVerify right) := by
  rw [scriptsVerify, scriptsVerify, ScriptState.pop_eq, ScriptState.pop_eq,
    relation.items related]
  cases right.items.head?.join with
  | none => exact ⟨rfl, relation.dropTop related⟩
  | some sdata => exact Related.same_bind _ fun _ _ => ⟨rfl, relation.dropTop related⟩

theorem parseOpHash_related (opcode : ScriptOpcode) :
    Related (StepRelated states) (parseOpHash env opcode left) (parseOpHash env opcode right) := by
  rw [parseOpHash, parseOpHash, ScriptState.pop_eq, ScriptState.pop_eq, relation.items related]
  cases right.items.head?.join with
  | none => exact ⟨rfl, relation.dropTop related⟩
  | some sdata =>
      apply Related.same_bind
      intro data _
      cases hashed : hashItem env.crypto opcode (data.getD []) with
      | none => exact ⟨rfl, relation.dropTop related⟩
      | some hash =>
          exact ⟨rfl, relation.push (relation.dropTop related) (hashItem_produced hashed _)⟩

theorem parseOpDup_related :
    Related (StepRelated states) (parseOpDup left) (parseOpDup right) := by
  have same : left.mainStack.items = right.mainStack.items := relation.items related
  rw [parseOpDup, parseOpDup, ← same]
  cases items : left.mainStack.items with
  | nil => exact ⟨rfl, related⟩
  | cons slot rest =>
      cases slot with
      | none => rfl
      | some sdata =>
          apply Related.same_bind
          intro copy cloned
          exact ⟨rfl, relation.push related (.copy items cloned)⟩

theorem parseOpEqualverify_related :
    Related (StepRelated states) (parseOpEqualverify left) (parseOpEqualverify right) := by
  have dropped := relation.dropTop related
  rw [parseOpEqualverify, parseOpEqualverify, relation.mainStack related]
  by_cases few : right.mainStack.count < 2
  · rw [if_pos few, if_pos few]
    exact ⟨rfl, related⟩
  · rw [if_neg few, if_neg few]
    simp only [ScriptState.pop_eq, relation.items related, relation.items dropped]
    apply Related.same_bind
    intro rc _
    apply Related.same_bind
    intro sdata1 _
    apply Related.same_bind
    intro _ _
    apply Related.same_bind
    intro sdata2 _
    apply Related.same_bind
    intro _ _
    exact ⟨rfl, relation.dropTop dropped⟩

theorem parseOpEqual_related :
    Related (StepRelated states) (parseOpEqual left) (parseOpEqual right) := by
  apply Related.bind (parseOpEqualverify_related relation related)
  rintro ⟨rc, after⟩ ⟨rc', after'⟩ ⟨same, afterRelated⟩
  change rc = rc' at same
  subst same
  exact ⟨rfl, relation.push afterRelated (.boolean _)⟩

theorem checksigDigest_related (hashType : UInt32) :
    Related (StepRelated states) (checksigDigest env left hashType)
      (checksigDigest env right hashType) := by
  rw [checksigDigest, checksigDigest]
  cases env.digest with
  | none => exact relation.digest related hashType
  | some digest => exact ⟨rfl, related⟩

theorem checksigVerifyImported_related (hashType : UInt32) (pubkey : env.crypto.PubKey)
    (sig : env.crypto.Signature) :
    Related (StepRelated states) (checksigVerifyImported env left hashType pubkey sig)
      (checksigVerifyImported env right hashType pubkey sig) := by
  apply Related.bind (checksigDigest_related relation related hashType)
  rintro ⟨digest, after⟩ ⟨digest', after'⟩ ⟨same, afterRelated⟩
  change digest = digest' at same
  subst same
  cases digest with
  | none => exact ⟨rfl, afterRelated⟩
  | some digest =>
      apply Related.same_bind
      intro exported _
      cases exported with
      | none => exact ⟨rfl, afterRelated⟩
      | some sigDer => exact ⟨rfl, afterRelated⟩

theorem parseOpChecksigverify_related :
    Related (StepRelated states) (parseOpChecksigverify env left)
      (parseOpChecksigverify env right) := by
  have dropped := relation.dropTop related
  rw [parseOpChecksigverify, parseOpChecksigverify, relation.mainStack related]
  by_cases few : right.mainStack.count < 2
  · rw [if_pos few, if_pos few]
    exact ⟨rfl, related⟩
  · rw [if_neg few, if_neg few]
    simp only [ScriptState.pop_eq, relation.items related]
    cases right.items.head?.join with
    | none => exact ⟨rfl, dropped⟩
    | some sdataPubkey =>
        apply Related.same_bind
        intro keyData _
        apply Related.same_bind
        intro imported _
        cases imported with
        | none => exact ⟨rfl, dropped⟩
        | some pubkey =>
            simp only [relation.items dropped]
            cases right.dropTop.items.head?.join with
            | none => exact ⟨rfl, relation.dropTop dropped⟩
            | some sdataSig =>
                apply Related.same_bind
                intro data _
                apply Related.same_bind
                intro _ _
                apply Related.same_bind
                intro sig _
                apply Related.same_bind
                intro hashType _
                cases sig with
                | none => exact ⟨rfl, relation.dropTop dropped⟩
                | some sig =>
                    exact checksigVerifyImported_related relation (relation.dropTop dropped)
                      _ pubkey sig

theorem parseOpChecksig_related :
    Related (StepRelated states) (parseOpChecksig env left) (parseOpChecksig env right) := by
  apply Related.bind (parseOpChecksigverify_related relation related)
  rintro ⟨rc, after⟩ ⟨rc', after'⟩ ⟨same, afterRelated⟩
  change rc = rc' at same
  subst same
  exact ⟨rfl, relation.push afterRelated (.boolean _)⟩

theorem refreshDigest_related (sighashType : UInt32) (scan : MultisigScan env.crypto.PubKey) :
    Related (StepRelated states) (refreshDigest env sighashType scan left)
      (refreshDigest env sighashType scan right) := by
  rw [refreshDigest, refreshDigest]
  by_cases current : sighashType = scan.prevSighashType
  · rw [if_pos current, if_pos current]
    exact ⟨rfl, related⟩
  · rw [if_neg current, if_neg current]
    apply Related.bind (relation.digest related sighashType)
    rintro ⟨digest, after⟩ ⟨digest', after'⟩ ⟨same, afterRelated⟩
    change digest = digest' at same
    subst same
    exact ⟨rfl, afterRelated⟩

end Words

/-! ## Loops -/

section Loops

variable {env : ScriptEnv} {states : ScriptState → ScriptState → Prop}

theorem popPubkeys_related (relation : StackRelation env states) (count : Nat)
    {left right : ScriptState} (related : states left right) :
    Related (StepRelated states) (popPubkeys env.crypto count left)
      (popPubkeys env.crypto count right) := by
  induction count generalizing left right with
  | zero => exact ⟨rfl, related⟩
  | succ count inductionHypothesis =>
      have dropped := relation.dropTop related
      simp only [popPubkeys, ScriptState.pop_eq, relation.items related]
      apply Related.same_bind
      intro imported _
      cases imported with
      | none => exact ⟨rfl, dropped⟩
      | some pubkey =>
          apply Related.bind (inductionHypothesis dropped)
          rintro ⟨rest, after⟩ ⟨rest', after'⟩ ⟨same, afterRelated⟩
          change rest = rest' at same
          subst same
          exact ⟨rfl, afterRelated⟩

theorem verifySigs_related (relation : StackRelation env states) (remaining : Nat)
    (scan : MultisigScan env.crypto.PubKey) {left right : ScriptState}
    (related : states left right) :
    Related (StepRelated states) (verifySigs env remaining scan left)
      (verifySigs env remaining scan right) := by
  induction remaining generalizing scan left right with
  | zero => exact ⟨rfl, related⟩
  | succ remaining inductionHypothesis =>
      have dropped := relation.dropTop related
      simp only [verifySigs, ScriptState.pop_eq, relation.items related]
      apply Related.same_bind
      intro imported _
      cases imported with
      | none => exact ⟨rfl, dropped⟩
      | some sig =>
          apply Related.bind (refreshDigest_related relation dropped sig.sighashType scan)
          rintro ⟨refreshed, after⟩ ⟨refreshed', after'⟩ ⟨same, afterRelated⟩
          change refreshed = refreshed' at same
          subst same
          cases refreshed with
          | none => exact ⟨rfl, afterRelated⟩
          | some scan =>
              apply Related.same_bind
              intro scanned _
              exact inductionHypothesis scanned afterRelated

theorem parseOpCheckmultisig_related (relation : StackRelation env states)
    {left right : ScriptState} (related : states left right) :
    Related (StepRelated states) (parseOpCheckmultisig env left)
      (parseOpCheckmultisig env right) := by
  have dropped := relation.dropTop related
  simp only [parseOpCheckmultisig, ScriptState.pop_eq, relation.items related]
  apply Related.same_bind
  intro count _
  cases count with
  | none => exact ⟨rfl, dropped⟩
  | some numPubkeys =>
      by_cases outside : numPubkeys < 1 ∨ 16 < numPubkeys
      · simp only [if_pos outside]
        exact ⟨rfl, dropped⟩
      · simp only [if_neg outside]
        apply Related.bind (popPubkeys_related relation numPubkeys.toNat dropped)
        rintro ⟨pubkeys, after⟩ ⟨pubkeys', after'⟩ ⟨same, afterRelated⟩
        change pubkeys = pubkeys' at same
        subst same
        cases pubkeys with
        | none => exact ⟨rfl, afterRelated⟩
        | some pubkeys =>
            simp only [relation.items afterRelated]
            apply Related.same_bind
            intro sigCount _
            have popped := relation.dropTop afterRelated
            cases sigCount with
            | none => exact ⟨rfl, popped⟩
            | some numSigs =>
                by_cases tooMany : numSigs < 0 ∨ numPubkeys < numSigs
                · simp only [if_pos tooMany]
                  exact ⟨rfl, popped⟩
                · simp only [if_neg tooMany]
                  apply Related.bind (verifySigs_related relation _ _ popped)
                  rintro ⟨⟨rc, verified⟩, finished⟩ ⟨result', finished'⟩ ⟨same, finishedRelated⟩
                  change (rc, verified) = result' at same
                  subst same
                  cases verified with
                  | none => exact ⟨rfl, finishedRelated⟩
                  | some verified => exact ⟨rfl, relation.push finishedRelated (.boolean _)⟩

/-- A callback into the parser that keeps the relation. -/
def ParseRelated (states : ScriptState → ScriptState → Prop) (parse : ParseCall) : Prop :=
  ∀ origin payload {left right}, states left right →
    Related (StepRelated states) (parse origin payload left) (parse origin payload right)

theorem parseOpIfNotif_related (relation : RunRelation env states) {parse : ParseCall}
    (callback : ParseRelated states parse) (isNotif : Bool) (origin : Option Nat)
    (payload : Bytes) {left right : ScriptState} (related : states left right) :
    Related (StepRelated states) (parseOpIfNotif parse isNotif origin payload left)
      (parseOpIfNotif parse isNotif origin payload right) := by
  have close : ∀ pEndif {left right : ScriptState}, states left right →
      Related (StepRelated states)
        (do
          let depth := left.ifStatementDepth - 1
          Exec.assert (0 ≤ depth)
          return (some pEndif, { left with ifStatementDepth := depth }))
        (do
          let depth := right.ifStatementDepth - 1
          Exec.assert (0 ≤ depth)
          return ((some pEndif : Option Nat), { right with ifStatementDepth := depth })) := by
    intro pEndif left right related
    simp only [relation.depth related]
    apply Related.same_bind
    intro _ _
    exact ⟨rfl, relation.withDepth related _⟩
  simp only [parseOpIfNotif, relation.depth related]
  by_cases outside : maxIfStatementDepth < right.ifStatementDepth ∨ right.ifStatementDepth < 1
  · simp only [if_pos outside]
    exact ⟨rfl, related⟩
  · simp only [if_neg outside]
    apply Related.bind (scriptsVerify_related relation.toStackRelation related)
    rintro ⟨rc, after⟩ ⟨rc', after'⟩ ⟨same, afterRelated⟩
    change rc = rc' at same
    subst same
    cases scanConditional (payload.length + 1) payload 0 0 none with
    | none => exact ⟨rfl, afterRelated⟩
    | some offsets =>
        obtain ⟨pElse, pEndif⟩ := offsets
        simp only
        cases selectBranch (isNotif != decide (rc = 0)) pElse pEndif with
        | none => exact close pEndif afterRelated
        | some branch =>
            obtain ⟨start, length⟩ := branch
            simp only
            apply Related.bind (callback _ _ afterRelated)
            rintro ⟨cb, inner⟩ ⟨cb', inner'⟩ ⟨same, innerRelated⟩
            change cb = cb' at same
            subst same
            by_cases short : cb ≠ length
            · simp only [if_pos short]
              exact ⟨rfl, innerRelated⟩
            · simp only [if_neg short]
              exact close pEndif innerRelated

theorem ofReturnCode_related {left right : Exec (Int × ScriptState)}
    (runs : Related (StepRelated states) left right) :
    Related (StepRelated states) (ofReturnCode left) (ofReturnCode right) := by
  apply Related.bind runs
  rintro ⟨rc, after⟩ ⟨rc', after'⟩ ⟨same, afterRelated⟩
  change rc = rc' at same
  subst same
  exact ⟨rfl, afterRelated⟩

/-- The words whose case of the `switch` calls the parser. -/
def ScriptOpcode.isConditional : ScriptOpcode → Bool
  | .if | .notif => true
  | _ => false

/-- Any other word but `OP_CODESEPARATOR` keeps a relation that says nothing about either,
whatever the callbacks are. -/
theorem parseOpcode_plain_related (relation : StackRelation env states) {opcode : ScriptOpcode}
    (word : opcode.isConditional = false) (plain : opcode ≠ .codeseparator)
    (parse parse' : ParseCall) (origin : Option Nat) (p : Bytes) {left right : ScriptState}
    (related : states left right) :
    Related (StepRelated states) (parseOpcode parse env opcode origin p left)
      (parseOpcode parse' env opcode origin p right) := by
  cases opcode with
  | ripemd160 => exact ofReturnCode_related (parseOpHash_related relation related _)
  | sha256 => exact ofReturnCode_related (parseOpHash_related relation related _)
  | hash160 => exact ofReturnCode_related (parseOpHash_related relation related _)
  | hash256 => exact ofReturnCode_related (parseOpHash_related relation related _)
  | dup => exact ofReturnCode_related (parseOpDup_related relation related)
  | equalverify => exact ofReturnCode_related (parseOpEqualverify_related relation related)
  | equal => exact ofReturnCode_related (parseOpEqual_related relation related)
  | checksig => exact ofReturnCode_related (parseOpChecksig_related relation related)
  | checksigverify =>
      exact ofReturnCode_related (parseOpChecksigverify_related relation related)
  | checkmultisig => exact ofReturnCode_related (parseOpCheckmultisig_related relation related)
  | nop => exact ⟨rfl, related⟩
  | «if» => cases word
  | notif => cases word
  | «else» => exact ⟨rfl, related⟩
  | endif => exact ⟨rfl, related⟩
  | verify => exact ofReturnCode_related (scriptsVerify_related relation related)
  | «return» => exact ⟨rfl, related⟩
  | codeseparator => exact absurd rfl plain
  | reserved => exact ⟨rfl, related⟩

/-- Any other word keeps a relation that says nothing about conditionals, whatever the
callbacks are. -/
theorem parseOpcode_word_related (relation : WordRelation env states) {opcode : ScriptOpcode}
    (word : opcode.isConditional = false) (parse parse' : ParseCall) (origin : Option Nat)
    (p : Bytes) {left right : ScriptState} (related : states left right) :
    Related (StepRelated states) (parseOpcode parse env opcode origin p left)
      (parseOpcode parse' env opcode origin p right) := by
  by_cases separator : opcode = .codeseparator
  · subst separator
    exact ofReturnCode_related (parseOpCodeseparator_related relation related origin)
  · exact parseOpcode_plain_related relation.toStackRelation word separator parse parse' origin p
      related

theorem parseOpcode_related (relation : RunRelation env states) {parse : ParseCall}
    (callback : ParseRelated states parse) (opcode : ScriptOpcode) (origin : Option Nat)
    (p : Bytes) {left right : ScriptState} (related : states left right) :
    Related (StepRelated states) (parseOpcode parse env opcode origin p left)
      (parseOpcode parse env opcode origin p right) := by
  have deeper := relation.withDepth related (right.ifStatementDepth + 1)
  cases conditional : opcode.isConditional with
  | false =>
      exact parseOpcode_word_related relation.toWordRelation conditional parse parse origin p
        related
  | true =>
      cases opcode with
      | «if» =>
          simp only [parseOpcode, relation.depth related]
          exact parseOpIfNotif_related relation callback false origin p deeper
      | notif =>
          simp only [parseOpcode, relation.depth related]
          exact parseOpIfNotif_related relation callback true origin p deeper
      | _ => cases conditional

theorem parseOpPushData_related (relation : StackRelation env states) (op : UInt8) (p : Bytes)
    {left right : ScriptState} (related : states left right) :
    StepRelated states (parseOpPushData op p left) (parseOpPushData op p right) := by
  rw [parseOpPushData, parseOpPushData]
  cases pushDataSize op p with
  | none => exact ⟨rfl, related⟩
  | some sizes =>
      obtain ⟨dataSize, offset⟩ := sizes
      by_cases short : p.length < offset + dataSize
      · simp only [if_pos short]
        exact ⟨rfl, related⟩
      · simp only [if_neg short]
        exact ⟨rfl, relation.push related (.data _)⟩

/-- One byte keeps a relation when its case of the `switch` does. -/
theorem parseByte_related_of_opcode (relation : StackRelation env states)
    {parse parse' : ParseCall} (type : TxScriptType) (op : UInt8) (origin : Option Nat)
    (p : Bytes) {left right : ScriptState} (related : states left right)
    (opcode : Related (StepRelated states)
      (parseOpcode parse env (.ofByte op) origin p left)
      (parseOpcode parse' env (.ofByte op) origin p right)) :
    Related (StepRelated states) (parseByte parse env type op origin p left)
      (parseByte parse' env type op origin p right) := by
  rw [parseByte, parseByte]
  split_ifs with zero push last txin small
  · exact ⟨rfl, relation.push related (.boolean false)⟩
  · rfl
  · exact parseOpPushData_related relation op p related
  · exact ⟨rfl, related⟩
  · exact ⟨rfl, relation.push related (.small _ (by grind) (by grind))⟩
  · exact opcode

theorem parseByte_related (relation : RunRelation env states) {parse : ParseCall}
    (callback : ParseRelated states parse) (type : TxScriptType) (op : UInt8)
    (origin : Option Nat) (p : Bytes) {left right : ScriptState} (related : states left right) :
    Related (StepRelated states) (parseByte parse env type op origin p left)
      (parseByte parse env type op origin p right) :=
  parseByte_related_of_opcode relation.toStackRelation type op origin p related
    (parseOpcode_related relation callback _ origin p related)

/-- A run of the opcode loop keeps the relation, by induction on its fuel; a conditional
calls back with less. -/
theorem parseLoop_related (relation : RunRelation env states) (type : TxScriptType)
    (fuel : Nat) (origin : Option Nat) (p : Bytes) {left right : ScriptState}
    (related : states left right) :
    Related (StepRelated states) (parseLoop env type fuel origin p left)
      (parseLoop env type fuel origin p right) := by
  induction fuel generalizing type origin p left right with
  | zero => trivial
  | succ fuel inductionHypothesis =>
      cases p with
      | nil => exact ⟨rfl, related⟩
      | cons op p =>
          refine Related.bind (parseByte_related relation ?_ type op _ p related) ?_
          · -- the call back into the loop, one level of fuel down
            intro origin payload left right related
            apply Related.same_bind
            intro _ _
            apply Related.bind (inductionHypothesis .unknown origin payload related)
            rintro ⟨finished, after⟩ ⟨finished', after'⟩ ⟨same, afterRelated⟩
            change finished = finished' at same
            subst same
            exact ⟨rfl, afterRelated⟩
          · rintro ⟨consumed, after⟩ ⟨consumed', after'⟩ ⟨same, afterRelated⟩
            change consumed = consumed' at same
            subst same
            cases consumed with
            | none => exact ⟨rfl, afterRelated⟩
            | some consumed => exact inductionHypothesis type _ _ afterRelated

theorem scriptsParseUnknown_related (relation : RunRelation env states)
    (origin : Option Nat) (payload : Bytes) {left right : ScriptState}
    (related : states left right) :
    Related (StepRelated states) (scriptsParseUnknown env origin payload left)
      (scriptsParseUnknown env origin payload right) := by
  apply Related.same_bind
  intro _ _
  apply Related.bind (parseLoop_related relation .unknown _ origin payload related)
  rintro ⟨finished, after⟩ ⟨finished', after'⟩ ⟨same, afterRelated⟩
  change finished = finished' at same
  subst same
  exact ⟨rfl, afterRelated⟩

end Loops

/-! ## Parse calls -/

/-- A relation that also survives what the calls around the loop write: the fields of the
input, and the mark on the output. -/
structure ParseRelation (env : ScriptEnv) (states : ScriptState → ScriptState → Prop) : Prop
    extends ScriptRelation env states where
  withTxin : ∀ {left right}, states left right → ∀ txin,
    states { left with txin := txin } { right with txin := txin }
  withNested : ∀ {left right}, states left right →
    states { left with utxoFlags := left.utxoFlags ||| txoutTypeP2shSegwitFlags }
      { right with utxoFlags := right.utxoFlags ||| txoutTypeP2shSegwitFlags }

/-- A relation that the parse calls cannot leave: besides, an item taken from a stack can be
put back on a later one. -/
structure CallRelation (env : ScriptEnv) (states : ScriptState → ScriptState → Prop) : Prop
    extends RunRelation env states where
  putBack : ∀ {left right sdata left' right'}, states left right → some sdata ∈ left.items →
    states left' right' → states (left'.push sdata) (right'.push sdata)
  withTxin : ∀ {left right}, states left right → ∀ txin,
    states { left with txin := txin } { right with txin := txin }
  withNested : ∀ {left right}, states left right →
    states { left with utxoFlags := left.utxoFlags ||| txoutTypeP2shSegwitFlags }
      { right with utxoFlags := right.utxoFlags ||| txoutTypeP2shSegwitFlags }

theorem ParseRelation.toCallRelation {env : ScriptEnv}
    {states : ScriptState → ScriptState → Prop} (relation : ParseRelation env states) :
    CallRelation env states :=
  { relation.toRunRelation with
    putBack := fun _ _ related => relation.push related _
    withTxin := relation.withTxin
    withNested := relation.withNested }

section ParseCalls

variable {env : ScriptEnv} {states : ScriptState → ScriptState → Prop}
  {left right : ScriptState}

/-- The item on top of a stack is one of its items. -/
theorem mem_of_top {slots : List (Option ScriptData)} {sdata : ScriptData}
    (top : slots.head?.join = some sdata) : some sdata ∈ slots := by
  cases slots with
  | nil => cases top
  | cons slot rest =>
      change slot = some sdata at top
      rw [top]
      exact List.mem_cons_self

theorem txinP2shScriptsPostProcess_related (relation : CallRelation env states)
    (related : states left right) :
    Related (StepRelated states) (txinP2shScriptsPostProcess env left)
      (txinP2shScriptsPostProcess env right) := by
  have marked := relation.withTxin related { right.txin with isP2sh := true }
  have dropped := relation.dropTop marked
  have sameItems := relation.items marked
  simp only [txinP2shScriptsPostProcess, relation.txin related]
  apply Related.same_bind
  intro _ _
  simp only [ScriptState.pop_eq, sameItems]
  cases top : (ScriptState.items
      { right with txin := { right.txin with isP2sh := true } }).head?.join with
  | none => exact ⟨rfl, dropped⟩
  | some sdata =>
      have present := mem_of_top top
      rw [← sameItems] at present
      by_cases inPlace : sdata.type.value < ScriptDataType.varstr.value
      · simp only [if_pos inPlace]
        exact ⟨rfl, dropped⟩
      · simp only [if_neg inPlace]
        apply Related.same_bind
        intro buffer _
        have recorded := relation.withTxin dropped
          (satoshiTxinSetRedeemScripts { right.txin with isP2sh := true }
            ((buffer.getD []).take sdata.size))
        apply Related.bind (scriptsParseUnknown_related relation.toRunRelation (some 0)
          ((buffer.getD []).take sdata.size) recorded)
        rintro ⟨cb, run⟩ ⟨cb', run'⟩ ⟨same, runRelated⟩
        change cb = cb' at same
        subst same
        by_cases short : cb ≠ sdata.size
        · simp only [if_pos short]
          exact ⟨rfl, runRelated⟩
        · simp only [if_neg short]
          apply Related.bind (scriptsVerify_related relation.toStackRelation runRelated)
          rintro ⟨rc, final⟩ ⟨rc', final'⟩ ⟨same, finalRelated⟩
          change rc = rc' at same
          subst same
          by_cases zero : rc = 0
          · simp only [if_pos zero]
            exact ⟨rfl, relation.putBack marked present finalRelated⟩
          · simp only [if_neg zero]
            exact ⟨rfl, finalRelated⟩

theorem parseSegwitScript_related (relation : CallRelation env states) (payload : Bytes)
    (related : states left right) :
    Related (StepRelated states) (parseSegwitScript env payload left)
      (parseSegwitScript env payload right) := by
  have keyHash : ∀ program, Related (StepRelated states) (parseP2wpkhProgram env program left)
      (parseP2wpkhProgram env program right) := by
    intro program
    have recorded := relation.withTxin related { right.txin with
      redeemScripts := some (right.txin.redeemScripts.getD (generateP2pkhScript program)) }
    simp only [parseP2wpkhProgram, relation.txin related]
    apply Related.bind (scriptsParseUnknown_related relation.toRunRelation (some 0) _ recorded)
    rintro ⟨cb, run⟩ ⟨cb', run'⟩ ⟨same, runRelated⟩
    change cb = cb' at same
    subst same
    apply Related.same_bind
    intro _ _
    exact ⟨rfl, runRelated⟩
  have scriptHash : ∀ program, Related (StepRelated states) (parseP2wshProgram env program left)
      (parseP2wshProgram env program right) := by
    intro program
    apply Related.bind (txinP2shScriptsPostProcess_related relation related)
    rintro ⟨rc, run⟩ ⟨rc', run'⟩ ⟨same, runRelated⟩
    change rc = rc' at same
    subst same
    by_cases fails : rc ≠ 0
    · simp only [if_pos fails]
      exact ⟨rfl, runRelated⟩
    · simp only [if_neg fails, ScriptState.pop_eq, relation.items runRelated]
      cases run'.items.head?.join with
      | none => rfl
      | some sdata =>
          apply Related.same_bind
          intro buffer _
          exact ⟨rfl, relation.push (relation.dropTop runRelated) (.boolean _)⟩
  match payload with
  | [] => exact ⟨rfl, related⟩
  | [_] => exact ⟨rfl, related⟩
  | versionByte :: programLength :: p =>
      simp only [parseSegwitScript]
      split_ifs
      · exact ⟨rfl, related⟩
      · exact ⟨rfl, related⟩
      · exact keyHash _
      · exact scriptHash _
      · exact ⟨rfl, related⟩

theorem pushWitnessItems_related (relation : WordRelation env states) (items : List Varstr)
    (related : states left right) :
    states (pushWitnessItems items left) (pushWitnessItems items right) := by
  induction items generalizing left right with
  | nil => exact related
  | cons item items inductionHypothesis =>
      apply inductionHypothesis
      by_cases empty : item.data.length = 0
      · simp only [if_pos empty]
        exact related
      · simp only [if_neg empty]
        exact relation.push related (.data _)

theorem preProcessNested_related (relation : CallRelation env states) (items : List Varstr)
    (related : states left right) :
    Related (StepRelated states) (preProcessNested env items left)
      (preProcessNested env items right) := by
  have flagged := relation.withNested related
  have sameCount : left.mainStack.count = right.mainStack.count := by
    rw [relation.mainStack related]
  simp only [preProcessNested, sameCount]
  -- from here on only the flagged states occur
  generalize right.mainStack.count = count
  generalize ({ left with utxoFlags := left.utxoFlags ||| txoutTypeP2shSegwitFlags } :
    ScriptState) = left at flagged
  generalize ({ right with utxoFlags := right.utxoFlags ||| txoutTypeP2shSegwitFlags } :
    ScriptState) = right at flagged
  have dropped := relation.dropTop flagged
  simp only [ScriptState.pop_eq, relation.items flagged]
  by_cases empty : count = 0
  · simp only [if_pos empty]
    exact ⟨rfl, flagged⟩
  · simp only [if_neg empty]
    cases top : right.items.head?.join with
    | none => rfl
    | some sdata =>
        have present := mem_of_top top
        rw [← relation.items flagged] at present
        apply Related.same_bind
        intro buffer _
        apply Related.same_bind
        intro _ _
        have pushed := pushWitnessItems_related relation.toWordRelation items dropped
        by_cases short : ((buffer.getD []).take sdata.size).length ≤ 2
        · simp only [if_pos short]
          exact ⟨rfl, pushed⟩
        · simp only [if_neg short]
          apply Related.bind (parseSegwitScript_related relation _ pushed)
          rintro ⟨rc, run⟩ ⟨rc', run'⟩ ⟨same, runRelated⟩
          change rc = rc' at same
          subst same
          have sameStack : run.mainStack = run'.mainStack := relation.mainStack runRelated
          simp only [sameStack]
          split_ifs
          · exact ⟨rfl, runRelated⟩
          · exact ⟨rfl, runRelated⟩
          · exact ⟨rfl, relation.putBack flagged present (relation.dropTop runRelated)⟩

theorem txoutScriptsPreProcess_related (relation : CallRelation env states) (payload : Bytes)
    (related : states left right) :
    Related (StepRelated states) (txoutScriptsPreProcess env payload left)
      (txoutScriptsPreProcess env payload right) := by
  simp only [txoutScriptsPreProcess, relation.txin related]
  apply Related.same_bind
  intro _ _
  by_cases isP2sh : right.txin.isP2sh = true
  · simp only [if_pos isP2sh]
    exact ⟨rfl, related⟩
  · simp only [if_neg isP2sh]
    apply Related.same_bind
    intro items _
    by_cases legacy : 16 < payload.headD 0
    · simp only [if_pos legacy]
      by_cases bare : items = []
      · simp only [if_pos bare]
        exact ⟨rfl, relation.withTxin related _⟩
      · simp only [if_neg bare]
        exact preProcessNested_related relation items related
    · simp only [if_neg legacy]
      apply Related.bind (parseSegwitScript_related relation payload
        (pushWitnessItems_related relation.toWordRelation items related))
      rintro ⟨rc, run⟩ ⟨rc', run'⟩ ⟨same, runRelated⟩
      change rc = rc' at same
      subst same
      by_cases fails : rc ≠ 0
      · simp only [if_pos fails]
        exact ⟨rfl, runRelated⟩
      · simp only [if_neg fails]
        exact ⟨rfl, runRelated⟩

theorem scriptsParseTxin_related (relation : CallRelation env states) (payload : Bytes)
    (related : states left right) :
    Related (StepRelated states) (scriptsParseTxin env payload left)
      (scriptsParseTxin env payload right) := by
  apply Related.same_bind
  intro _ _
  apply Related.bind (parseLoop_related relation.toRunRelation .txin _ none _ related)
  rintro ⟨finished, pushed⟩ ⟨finished', pushed'⟩ ⟨same, pushedRelated⟩
  change finished = finished' at same
  subst same
  simp only
  split_ifs
  · exact ⟨rfl, pushedRelated⟩
  · apply Related.bind (txinP2shScriptsPostProcess_related relation pushedRelated)
    rintro ⟨rc, run⟩ ⟨rc', run'⟩ ⟨same, runRelated⟩
    change rc = rc' at same
    subst same
    by_cases fails : rc ≠ 0
    · simp only [if_pos fails]
      exact ⟨rfl, runRelated⟩
    · simp only [if_neg fails]
      exact ⟨rfl, runRelated⟩
  · exact ⟨rfl, pushedRelated⟩

theorem scriptsParseTxout_related (relation : CallRelation env states) (payload : Bytes)
    (related : states left right) :
    Related (StepRelated states) (scriptsParseTxout env payload left)
      (scriptsParseTxout env payload right) := by
  apply Related.same_bind
  intro _ _
  apply Related.bind (txoutScriptsPreProcess_related relation payload related)
  rintro ⟨start, processed⟩ ⟨start', processed'⟩ ⟨same, processedRelated⟩
  change start = start' at same
  subst same
  cases start with
  | reject => exact ⟨rfl, processedRelated⟩
  | done => exact ⟨rfl, processedRelated⟩
  | execute =>
      apply Related.bind
        (parseLoop_related relation.toRunRelation .txout _ none payload processedRelated)
      rintro ⟨finished, run⟩ ⟨finished', run'⟩ ⟨same, runRelated⟩
      change finished = finished' at same
      subst same
      exact ⟨rfl, runRelated⟩

/-- Every parse call keeps the relation and returns the same length. -/
theorem scriptsParse_related (relation : CallRelation env states) (type : TxScriptType)
    (payload : Bytes) (related : states left right) :
    Related (StepRelated states) (scriptsParse env type payload left)
      (scriptsParse env type payload right) := by
  cases type with
  | unknown => exact scriptsParseUnknown_related relation.toRunRelation none payload related
  | txin => exact scriptsParseTxin_related relation payload related
  | txout => exact scriptsParseTxout_related relation payload related

end ParseCalls

/-! ## Untouched fields -/

/-- The fields of the input and of the output that words do not write. -/
structure SameInput (start state : ScriptState) : Prop where
  isP2sh : state.txin.isP2sh = start.txin.isP2sh
  redeemScripts : state.txin.redeemScripts = start.txin.redeemScripts
  utxoFlags : state.utxoFlags = start.utxoFlags

theorem sameInput_relation (env : ScriptEnv) (start : ScriptState) :
    ScriptRelation env fun left right => left = right ∧ SameInput start left where
  mainStack := fun related => congrArg _ related.1
  depth := fun related => congrArg _ related.1
  txin := fun related => congrArg _ related.1
  withStack := fun related stack => ⟨by rw [related.1], ⟨related.2.1, related.2.2, related.2.3⟩⟩
  withDepth := fun related depth => ⟨by rw [related.1], ⟨related.2.1, related.2.2, related.2.3⟩⟩
  withStartPos := fun related position =>
    ⟨by rw [related.1], ⟨related.2.1, related.2.2, related.2.3⟩⟩
  digest := by
    rintro left right ⟨rfl, same⟩ hashType
    cases digests : getDigest env left hashType with
    | ok result =>
        have frame := getDigest_frame digests
        refine ⟨rfl, rfl, ?_⟩
        rw [frame]
        exact ⟨same.1, same.2, same.3⟩
    | fault cause => rfl
    | timeout => trivial

/-- A run of a script leaves the input's mark, its redeem scripts and the flags alone. -/
theorem parseLoop_sameInput {env : ScriptEnv} {type : TxScriptType} {fuel : Nat}
    {origin : Option Nat} {p : Bytes} {state after : ScriptState} {finished : Bool}
    (returns : parseLoop env type fuel origin p state = .ok (finished, after)) :
    SameInput state after := by
  have start : state = state ∧ SameInput state state := ⟨rfl, rfl, rfl, rfl⟩
  have run := parseLoop_related (sameInput_relation env state).toRunRelation type fuel origin p start
  rw [returns] at run
  exact run.2.2

theorem scriptsParseUnknown_sameInput {env : ScriptEnv} {origin : Option Nat} {payload : Bytes}
    {state after : ScriptState} {cb : Int}
    (returns : scriptsParseUnknown env origin payload state = .ok (cb, after)) :
    SameInput state after := by
  obtain ⟨_, -, returns⟩ := Exec.bind_eq_ok.1 returns
  obtain ⟨⟨finished, parsed⟩, loop, returns⟩ := Exec.bind_eq_ok.1 returns
  cases returns
  exact parseLoop_sameInput loop

end BitcoinClib.Script
