import BitcoinClib.HeadersDb.Pages

/-!
Contract: the reload of the stored headers when the application starts.

Owns:
- the loading loop of `app_run`, with `chain->add` as a parameter;
- `Reloads`, that the loop delivers every stored header once and in order, and stops;
- that it does so for an empty store and for no other.

Does not own: what the chain does with a header.
-/

namespace BitcoinClib.HeadersDb

open BitcoinClib.Lib
open BitcoinClib.Lib.Exec

variable {Hash Header Chain : Type}

/-- The chain, and the headers passed to `chain->add` so far. -/
structure LoadState (Hash Header Chain : Type) where
  chain : Chain
  delivered : List (StoredHeader Hash Header)

/-- `chain->add`: the return code and the chain. -/
abbrev ChainAdd (Hash Header Chain : Type) := Chain → Hash → Header → Exec (Int × Chain)

/-- The `for` loop over one page; a duplicate aborts. -/
def addPage (add : ChainAdd Hash Header Chain) :
    List (StoredHeader Hash Header) → LoadState Hash Header Chain →
      Exec (LoadState Hash Header Chain)
  | [], state => .ok state
  | header :: page, state => do
      let (rc, chain) ← add state.chain header.hash header.hdr
      Exec.assert (rc ≠ -1)
      addPage add page ⟨chain, state.delivered ++ [header]⟩

/-- The `while` loop of `app_run`. `gQuit` is the value of `g_quit` at each test. -/
def loadHeaders (index : HeightIndex Hash Header) (add : ChainAdd Hash Header Chain)
    (gQuit : Nat → Bool) :
    Nat → Nat → BlockHeadersDb Hash Header → LoadState Hash Header Chain →
      Exec (LoadState Hash Header Chain)
  | 0, _, _, _ => .timeout
  | fuel + 1, tests, db, state =>
      if gQuit tests then .ok state
      else do
        let (rc, db) ← headersDbNext index db
        if rc ≠ none then return state
        else do
          let state ← addPage add db.page state
          loadHeaders index add gQuit fuel (tests + 1) db state

/-- The loading part of `app_run`. -/
def appRunLoad (index : HeightIndex Hash Header) (add : ChainAdd Hash Header Chain)
    (gQuit : Nat → Bool) (fuel : Nat) (chain : Chain) : Exec (LoadState Hash Header Chain) :=
  loadHeaders index add gQuit fuel 0 blockHeadersDbInit ⟨chain, []⟩

/-- Unless it is told to quit, the loop ends, and has then passed the stored headers to
`chain->add`, each once and in order. -/
def Reloads (index : HeightIndex Hash Header) (add : ChainAdd Hash Header Chain) (chain : Chain)
    (stored : List (StoredHeader Hash Header)) : Prop :=
  ∃ final, Converges (fun fuel => appRunLoad index add (fun _ => false) fuel chain)
    ⟨final, stored⟩

/-! ## Runs of the loop -/

variable {index : HeightIndex Hash Header} {add : ChainAdd Hash Header Chain}
  {position : index.Cursor → Option Nat} {stored : List (StoredHeader Hash Header)}

/-- A page that is added without a duplicate was delivered in order. -/
theorem addPage_delivered {page : List (StoredHeader Hash Header)}
    {state after : LoadState Hash Header Chain} (returns : addPage add page state = .ok after) :
    after.delivered = state.delivered ++ page := by
  induction page generalizing state with
  | nil =>
      cases returns
      exact (List.append_nil _).symm
  | cons header page inductionHypothesis =>
      obtain ⟨⟨rc, chain⟩, -, returns⟩ := bind_eq_ok.1 returns
      obtain ⟨_, -, returns⟩ := bind_eq_ok.1 returns
      rw [inductionHypothesis returns, List.append_assoc]
      rfl

/-- Nothing that was delivered is taken back. -/
theorem loadHeaders_grows {gQuit : Nat → Bool} {fuel tests : Nat} {db : BlockHeadersDb Hash Header}
    {state after : LoadState Hash Header Chain}
    (returns : loadHeaders index add gQuit fuel tests db state = .ok after) :
    state.delivered.length ≤ after.delivered.length := by
  induction fuel generalizing tests db state with
  | zero => cases returns
  | succ fuel inductionHypothesis =>
      rw [loadHeaders] at returns
      split_ifs at returns with quit
      · cases returns
        exact Nat.le_refl _
      · obtain ⟨⟨rc, fetched⟩, -, returns⟩ := bind_eq_ok.1 returns
        simp only at returns
        split_ifs at returns with ended
        · cases returns
          exact Nat.le_refl _
        · obtain ⟨added, adds, returns⟩ := bind_eq_ok.1 returns
          have onwards := inductionHypothesis returns
          rw [addPage_delivered adds, List.length_append] at onwards
          omega

/-- From a page boundary on, a loop over a store that is not empty never ends with what is
stored: it stops before an incomplete page, and starts again behind a complete last one. -/
theorem loadHeaders_incomplete (serves : Serves index position stored) (nonempty : stored ≠ [])
    {fuel tests place : Nat} {page : List (StoredHeader Hash Header)}
    {state after : LoadState Hash Header Chain} (boundary : pageLimits ∣ place)
    (within : place ≤ stored.length) (delivered : state.delivered = stored.take place)
    (returns : loadHeaders index add (fun _ => false) fuel tests ⟨place, page⟩ state = .ok after) :
    after.delivered ≠ stored := by
  induction fuel generalizing tests place page state with
  | zero => cases returns
  | succ fuel inductionHypothesis =>
      rw [loadHeaders, if_neg (by decide)] at returns
      rcases Nat.lt_or_eq_of_le within with further | whole
      · rw [headersDbNext_found serves further, Exec.ok_bind] at returns
        by_cases full : place + pageLimits ≤ stored.length
        · simp only [if_pos full, ne_eq, not_true_eq_false, if_false] at returns
          obtain ⟨added, adds, returns⟩ := bind_eq_ok.1 returns
          have width : ((stored.drop place).take pageLimits).length = pageLimits := by
            rw [List.length_take, List.length_drop]
            omega
          rw [width] at returns
          refine inductionHypothesis (Nat.dvd_add boundary (Nat.dvd_refl _)) full ?_ returns
          rw [addPage_delivered adds, delivered, List.take_add]
        · simp only [if_neg full, ne_eq, reduceCtorEq, not_false_eq_true, if_true] at returns
          cases returns
          rw [delivered]
          intro same
          have lengths := congrArg List.length same
          rw [List.length_take] at lengths
          omega
      · have positive := List.length_pos_of_ne_nil nonempty
        have full : pageLimits ≤ stored.length := by
          rw [← whole]
          exact Nat.le_of_dvd (by omega) boundary
        rw [headersDbNext_behind serves (Nat.le_of_eq whole.symm), Exec.ok_bind] at returns
        simp only [if_pos full, ne_eq, not_true_eq_false, if_false] at returns
        obtain ⟨added, adds, returns⟩ := bind_eq_ok.1 returns
        have onwards := loadHeaders_grows returns
        rw [addPage_delivered adds, delivered, List.length_append, List.length_take,
          List.length_take, whole, Nat.min_self, Nat.min_eq_left full] at onwards
        intro same
        rw [same] at onwards
        have slots : 0 < pageLimits := by decide
        omega

/-- The loop reloads an empty store, and no other: of `n` stored headers it passes on those of
the complete pages, and when there are only complete pages the first one again. -/
theorem appRun_reloads_iff (serves : Serves index position stored)
    (add : ChainAdd Hash Header Chain) (chain : Chain) :
    Reloads index add chain stored ↔ stored = [] := by
  constructor
  · rintro ⟨final, bound, returns⟩
    by_contra nonempty
    have run := returns bound (Nat.le_refl bound)
    exact loadHeaders_incomplete serves nonempty (Nat.dvd_zero _) (Nat.zero_le _) rfl run rfl
  · rintro rfl
    refine ⟨chain, 1, fun fuel enough => ?_⟩
    obtain ⟨fuel, rfl⟩ : ∃ previous, fuel = previous + 1 := ⟨fuel - 1, by omega⟩
    have ended := headersDbNext_behind serves (Nat.le_refl 0) []
    show loadHeaders index add (fun _ => false) (fuel + 1) 0 ⟨(0 : Nat), []⟩ ⟨chain, []⟩ = _
    rw [loadHeaders, if_neg (by decide), ended]
    rfl

/-! ## An index held in a list -/

/-- The index over a list of headers; the cursor is the place it was moved to. -/
def listIndex (stored : List (StoredHeader Hash Header)) : HeightIndex Hash Header where
  Cursor := Option Nat
  cursor := .ok none
  pget cursor flags key :=
    let place := if flags = .set then key.toNat - 1 else nextPlace cursor
    match stored[place]? with
    | some header =>
        if flags = .set ∧ (header.height : Int) ≠ key then (.error .notFound, cursor)
        else (.ok header, some place)
    | none => (.error .notFound, cursor)

/-- Headers in a list are served as documented. -/
theorem listIndex_serves (heights : ∀ place header, stored[place]? = some header →
    header.height = place + 1) :
    Serves (listIndex stored) (fun cursor => cursor) stored where
  heights := heights
  opens := ⟨none, rfl, rfl⟩
  setFound := by
    intro cursor place header here
    exact ⟨some place, by simp [listIndex, here, heights place header here], rfl⟩
  setMissing := by
    intro cursor key absent
    refine ⟨cursor, ?_, rfl⟩
    cases there : stored[key.toNat - 1]? with
    | none => simp [listIndex, there]
    | some header =>
        have other := absent header (List.mem_of_getElem? there)
        simp [listIndex, there, other]
  nextFound := by
    intro cursor key header here
    exact ⟨some (nextPlace cursor), by simp [listIndex, here], rfl⟩
  nextMissing := by
    intro cursor key behind
    exact ⟨cursor, by simp [listIndex, behind]⟩

/-- A chain that counts the headers it is given. -/
def countingAdd : ChainAdd Nat Nat Nat := fun count _ _ => .ok (0, count + 1)

/-- A single stored header. -/
def genesisOnly : List (StoredHeader Nat Nat) := [⟨7, 1, 7⟩]

theorem genesisOnly_heights : ∀ place header, genesisOnly[place]? = some header →
    header.height = place + 1 := by
  intro place header here
  cases place with
  | zero =>
      cases here
      rfl
  | succ place => cases here

/-- An empty store is reloaded, and a single header is not. -/
theorem appRun_reloads_iff_small :
    Reloads (listIndex []) countingAdd 0 [] ∧
      ¬ Reloads (listIndex genesisOnly) countingAdd 0 genesisOnly := by
  have empty : Serves (listIndex ([] : List (StoredHeader Nat Nat))) (fun cursor => cursor) [] :=
    listIndex_serves (by simp)
  have single : Serves (listIndex genesisOnly) (fun cursor => cursor) genesisOnly :=
    listIndex_serves genesisOnly_heights
  refine ⟨(appRun_reloads_iff empty countingAdd 0).2 rfl, fun reloads => ?_⟩
  have none := (appRun_reloads_iff single countingAdd 0).1 reloads
  cases none

/-- With a single stored header the loop ends before it delivers anything. -/
theorem genesisOnly_not_reloaded :
    (∀ fuel, appRunLoad (listIndex genesisOnly) countingAdd (fun _ => false) (fuel + 1) 0 =
      .ok ⟨0, []⟩) ∧
    ¬ ∀ stored : List (StoredHeader Nat Nat),
      (∀ place header, stored[place]? = some header → header.height = place + 1) →
      Reloads (listIndex stored) countingAdd 0 stored := by
  have ended : ∀ fuel, appRunLoad (listIndex genesisOnly) countingAdd (fun _ => false) (fuel + 1)
      0 = .ok ⟨0, []⟩ := fun fuel => rfl
  refine ⟨ended, fun reloads => ?_⟩
  obtain ⟨final, bound, returns⟩ := reloads genesisOnly genesisOnly_heights
  have run := (ended bound).symm.trans (returns (bound + 1) (Nat.le_succ bound))
  cases run

end BitcoinClib.HeadersDb
