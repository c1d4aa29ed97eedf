import Mathlib.Algebra.Group.Nat.Defs
import Mathlib.Data.List.Sort

/-!
# `Connector.TierPolling` — polling the tier registry

The loop of `poll_tier_registry_events`, against a provider that answers every query. It goes on while the
cursor `from_block` is at or below the head of the chain, but a page never reaches beyond the stop block. With
a stop block **below the head** the cursor is set to the block after it again and again. The loop ends, asks
for every block and never sets the cursor back exactly if there is nothing to poll or no such stop block
(`pollTierRegistry_iff`).

Block numbers are `u64`: sums wrap around.
-/

namespace Hypersnap

def basePageSize : Nat := 8000

/-- The last block to ask for: the smaller of stop block and head. -/
def lastWanted (stopBlock : Option Nat) (currentBlock : Nat) : Nat :=
  match stopBlock with
  | some stop => min stop currentBlock
  | none => currentBlock

/-- The last block of the next page. -/
def toBlock (stopBlock : Option Nat) (currentBlock fromBlock : Nat) : Nat :=
  min (lastWanted stopBlock currentBlock) ((fromBlock + basePageSize) % 2 ^ 64)

/-- **A run of the loop that ends**: from this cursor, with these queries, each recorded by its last block, at
    that cursor. -/
inductive Polls (stopBlock : Option Nat) (currentBlock : Nat) : Nat → List (Nat × Nat) → Nat → Prop
  | done {fromBlock : Nat} (h : ¬ fromBlock ≤ currentBlock) :
      Polls stopBlock currentBlock fromBlock [] fromBlock
  | page {fromBlock last : Nat} {queries : List (Nat × Nat)} (h : fromBlock ≤ currentBlock)
      (hrest : Polls stopBlock currentBlock
        ((toBlock stopBlock currentBlock fromBlock + 1) % 2 ^ 64) queries last) :
      Polls stopBlock currentBlock fromBlock
      ((fromBlock, toBlock stopBlock currentBlock fromBlock) :: queries) last

/-- The loop ends, has asked for every block up to the smaller of stop block and head, and leaves the cursor
    no lower. -/
def PollsAll (stopBlock : Option Nat) (currentBlock fromBlock : Nat) : Prop :=
  ∃ queries last, Polls stopBlock currentBlock fromBlock queries last ∧ fromBlock ≤ last ∧
    ∀ block, fromBlock ≤ block → block ≤ lastWanted stopBlock currentBlock →
    ∃ q ∈ queries, q.1 ≤ block ∧ block ≤ q.2

variable {stopBlock : Option Nat} {currentBlock fromBlock : Nat}

theorem lastWanted_le : lastWanted stopBlock currentBlock ≤ currentBlock := by
  unfold lastWanted
  split
  · exact Nat.min_le_right _ _
  · exact Nat.le_refl _

/-- Up to the head, every page moves the cursor on. -/
theorem pollsAll_of_head (hhead : currentBlock + basePageSize < 2 ^ 64)
    (hstop : lastWanted stopBlock currentBlock = currentBlock) (fromBlock : Nat) :
    PollsAll stopBlock currentBlock fromBlock := by
  have hsize : 0 < basePageSize := by decide
  -- induction on the number of blocks that are left
  induction hleft : currentBlock + 1 - fromBlock using Nat.strongRecOn generalizing fromBlock with
  | _ left ih =>
    by_cases hmore : fromBlock ≤ currentBlock
    · have hpage :
          toBlock stopBlock currentBlock fromBlock = min currentBlock (fromBlock + basePageSize) := by
        rw [toBlock, hstop, Nat.mod_eq_of_lt (by omega)]
      have hcursor : (toBlock stopBlock currentBlock fromBlock + 1) % 2 ^ 64 =
          toBlock stopBlock currentBlock fromBlock + 1 := by
        rw [hpage, Nat.mod_eq_of_lt (by omega)]
      obtain ⟨queries, last, hrest, hle, hall⟩ :=
        ih _ (by omega) (toBlock stopBlock currentBlock fromBlock + 1) rfl
      refine ⟨_, last, .page hmore (hcursor.symm ▸ hrest), by omega, fun block hfrom hto => ?_⟩
      by_cases hfirst : block ≤ toBlock stopBlock currentBlock fromBlock
      · exact ⟨_, List.mem_cons_self, hfrom, hfirst⟩
      · obtain ⟨q, hq, hin⟩ := hall block (by omega) hto
        exact ⟨q, List.mem_cons_of_mem _ hq, hin⟩
    · exact ⟨[], fromBlock, .done hmore, Nat.le_refl _, fun block hfrom hto => by omega⟩

/-- Below the head, a stop block keeps the cursor there. -/
theorem Polls.false_of_stop {queries : List (Nat × Nat)} {last : Nat}
    (h : Polls stopBlock currentBlock fromBlock queries last)
    (hstop : lastWanted stopBlock currentBlock < currentBlock) (hfrom : fromBlock ≤ currentBlock) :
    False := by
  induction h with
  | done h => exact h hfrom
  | @page fromBlock last queries _ _ ih =>
    have hpage : toBlock stopBlock currentBlock fromBlock ≤ lastWanted stopBlock currentBlock :=
      Nat.min_le_left _ _
    exact ih ((Nat.mod_le _ _).trans
      (show toBlock stopBlock currentBlock fromBlock + 1 ≤ currentBlock by omega))

/-- **When polling ends and is complete**, for every start, head and stop block, as long as no page reaches
    beyond the range of block numbers. -/
theorem pollTierRegistry_iff (hhead : currentBlock + basePageSize < 2 ^ 64) :
    PollsAll stopBlock currentBlock fromBlock ↔
      currentBlock < fromBlock ∨ ∀ stop, stopBlock = some stop → currentBlock ≤ stop := by
  constructor
  · rintro ⟨queries, last, hpolls, -⟩
    by_contra hnot
    simp only [not_or, Nat.not_lt, not_forall, Nat.not_le] at hnot
    obtain ⟨hfrom, stop, rfl, hstop⟩ := hnot
    exact hpolls.false_of_stop ((Nat.min_le_left stop currentBlock).trans_lt hstop) hfrom
  · rintro (hdone | hstop)
    · have hle := @lastWanted_le stopBlock currentBlock
      exact ⟨[], fromBlock, .done (Nat.not_le.2 hdone), Nat.le_refl _, fun block hfrom hto => by omega⟩
    · refine pollsAll_of_head hhead ?_ fromBlock
      unfold lastWanted
      split
      next stop => exact Nat.min_eq_right (hstop stop rfl)
      next => rfl

theorem pollTierRegistry_iff_noStop : PollsAll none 20000 5 :=
  (pollTierRegistry_iff (by decide)).2 (.inr fun _ h => nomatch h)

/-- **Polling does not end** with stop block 10 on a chain of 20 blocks. -/
theorem pollTierRegistry_stuck : ¬ PollsAll (some 10) 20 0 := by
  rintro ⟨queries, last, hpolls, -⟩
  exact hpolls.false_of_stop (by decide) (by decide)

end Hypersnap
