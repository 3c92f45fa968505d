import Mathlib.Data.List.Perm.Basic
import Mathlib.Data.Int.Notation

/-!
# Rounds of migrations

`HostKVRebalancer.group_migrations_for_parallel_execution` of `batchgen/worker/host_rebalancer.py`.  Every pass of
the outer loop goes once over a copy of the remaining migrations and takes out those that fit into the round.

* `Pass` — what a pass has done, over any part of its copy;
* `Pass.consider`, `Pass.foldl` — one migration, and the rest of the copy;
* **`groupMigrations_partition`** — the loop ends, and its rounds are the list, cut up without a conflict.
-/

namespace Batchgen.Migration

open List

structure MigrationOp where
  uuid : String
  fromRank : ℤ
  toRank : ℤ
  pages : ℤ
  hostPages : ℤ := 0
  deriving DecidableEq

variable {numGpusPerNode : ℤ} {mig : MigrationOp} {rest all skipped : List MigrationOp}

/-! ### The grouping -/

/-- The variables of one pass of the outer loop. -/
structure Round where
  roundMigrations : List MigrationOp := []
  usedRanks : List ℤ := []
  usedSrcNodes : List ℤ := []
  remaining : List MigrationOp

/-- The body of the inner loop; `remaining.remove(mig)` takes out the first migration equal to `mig`. -/
def Round.consider (numGpusPerNode : ℤ) (round : Round) (mig : MigrationOp) : Round :=
  let srcNode := mig.fromRank.fdiv numGpusPerNode
  if mig.fromRank ∉ round.usedRanks ∧ mig.toRank ∉ round.usedRanks ∧ srcNode ∉ round.usedSrcNodes then
    { roundMigrations := round.roundMigrations ++ [mig]
      usedRanks := mig.toRank :: mig.fromRank :: round.usedRanks
      usedSrcNodes := srcNode :: round.usedSrcNodes
      remaining := round.remaining.erase mig }
  else round

/-- The outer loop; `none` when `fuel` passes are not enough, or when a rank is divided by zero. -/
def groupMigrations (numGpusPerNode : ℤ) : ℕ → List MigrationOp → Option (List (List MigrationOp))
  | _, [] => some []
  | 0, _ :: _ => none
  | fuel + 1, remaining =>
    if numGpusPerNode = 0 then none
    else
      let round := remaining.foldl (Round.consider numGpusPerNode) { remaining := remaining }
      (groupMigrations numGpusPerNode fuel round.remaining).map (round.roundMigrations :: ·)

/-! ### One pass -/

/-- Two migrations of one round: no rank takes part in both, and their source nodes differ. -/
def Compatible (numGpusPerNode : ℤ) (a b : MigrationOp) : Prop :=
  a.fromRank ≠ b.fromRank ∧ a.fromRank ≠ b.toRank ∧ a.toRank ≠ b.fromRank ∧ a.toRank ≠ b.toRank ∧
    a.fromRank.fdiv numGpusPerNode ≠ b.fromRank.fdiv numGpusPerNode

/-- A pass that started with `all` and has `rest` of its copy before it: what it did not take is still there, and its
sets name the ranks and source nodes of what it took. -/
structure Pass (numGpusPerNode : ℤ) (all skipped rest : List MigrationOp) (round : Round) : Prop where
  remaining : round.remaining.Perm (skipped ++ rest)
  total : (round.roundMigrations ++ round.remaining).Perm all
  ranks : ∀ mig ∈ round.roundMigrations, mig.fromRank ∈ round.usedRanks ∧ mig.toRank ∈ round.usedRanks
  nodes : ∀ mig ∈ round.roundMigrations, mig.fromRank.fdiv numGpusPerNode ∈ round.usedSrcNodes
  compatible : round.roundMigrations.Pairwise (Compatible numGpusPerNode)

/-- **One migration** is taken out of the list, or left for a later round. -/
theorem Pass.consider {round : Round} (h : Pass numGpusPerNode all skipped (mig :: rest) round) :
    ∃ skipped', Pass numGpusPerNode all skipped' rest (round.consider numGpusPerNode mig) ∧
      round.roundMigrations.length ≤ (round.consider numGpusPerNode mig).roundMigrations.length := by
  unfold Round.consider
  dsimp only
  split
  · rename_i hfree
    obtain ⟨hfrom, hto, hnode⟩ := hfree
    have hmem : mig ∈ round.remaining := h.remaining.mem_iff.mpr (by simp)
    refine ⟨skipped, ⟨?_, ?_, ?_, ?_, ?_⟩, by simp⟩
    · refine (h.remaining.erase mig).trans ?_
      exact (perm_middle.erase mig).trans (by rw [erase_cons_head])
    · rw [append_assoc, singleton_append]
      exact ((perm_cons_erase hmem).symm.append_left _).trans h.total
    · intro other hother
      rcases mem_append.mp hother with hold | hnew
      · have hused := h.ranks other hold
        simp [hused]
      · rw [mem_singleton.mp hnew]
        simp
    · intro other hother
      rcases mem_append.mp hother with hold | hnew
      · exact mem_cons_of_mem _ (h.nodes other hold)
      · rw [mem_singleton.mp hnew]
        exact mem_cons_self
    · refine pairwise_append.mpr ⟨h.compatible, pairwise_singleton _ _, fun other hother new hnew => ?_⟩
      obtain ⟨hf, ht⟩ := h.ranks other hother
      have hn := h.nodes other hother
      rw [mem_singleton.mp hnew]
      exact ⟨fun heq => hfrom (heq ▸ hf), fun heq => hto (heq ▸ hf), fun heq => hfrom (heq ▸ ht),
        fun heq => hto (heq ▸ ht), fun heq => hnode (heq ▸ hn)⟩
  · exact ⟨skipped ++ [mig], { h with remaining := by simpa using h.remaining }, Nat.le_refl _⟩

/-- **The rest of the copy**: a pass keeps its facts, and what it took. -/
theorem Pass.foldl {round : Round} (h : Pass numGpusPerNode all skipped rest round) :
    ∃ skipped', Pass numGpusPerNode all skipped' [] (rest.foldl (Round.consider numGpusPerNode) round) ∧
      round.roundMigrations.length ≤ (rest.foldl (Round.consider numGpusPerNode) round).roundMigrations.length := by
  induction rest generalizing round skipped with
  | nil => exact ⟨skipped, h, Nat.le_refl _⟩
  | cons mig rest ih =>
    obtain ⟨skipped₁, h₁, hle₁⟩ := h.consider
    obtain ⟨skipped₂, h₂, hle₂⟩ := ih h₁
    exact ⟨skipped₂, h₂, Nat.le_trans hle₁ hle₂⟩

/-- A whole pass takes at least the first migration. -/
theorem Pass.whole (numGpusPerNode : ℤ) (mig : MigrationOp) (rest : List MigrationOp) :
    ∃ skipped, Pass numGpusPerNode (mig :: rest) skipped []
        ((mig :: rest).foldl (Round.consider numGpusPerNode) { remaining := mig :: rest }) ∧
      1 ≤ ((mig :: rest).foldl (Round.consider numGpusPerNode)
        { remaining := mig :: rest }).roundMigrations.length := by
  have hstart : Pass numGpusPerNode (mig :: rest) [] (mig :: rest) { remaining := mig :: rest } :=
    ⟨Perm.refl _, Perm.refl _, by simp, by simp, .nil⟩
  obtain ⟨skipped₁, h₁, -⟩ := hstart.consider
  obtain ⟨skipped₂, h₂, hle⟩ := h₁.foldl
  exact ⟨skipped₂, h₂, by simpa [Round.consider] using hle⟩

/-! ### The loop -/

/-- **The loop ends for every list**, and its rounds partition the list into groups without a conflict. -/
theorem groupMigrations_partition (numGpusPerNode : ℤ) (hgpus : numGpusPerNode ≠ 0) (migrations : List MigrationOp) :
    ∃ rounds, (∀ fuel, migrations.length ≤ fuel → groupMigrations numGpusPerNode fuel migrations = some rounds) ∧
      rounds.flatten.Perm migrations ∧
      ∀ round ∈ rounds, round ≠ [] ∧ round.Pairwise (Compatible numGpusPerNode) := by
  -- each pass takes at least one migration, so the remaining list gets shorter
  induction hn : migrations.length using Nat.strongRecOn generalizing migrations with
  | ind n ih =>
    subst hn
    cases migrations with
    | nil => exact ⟨[], fun fuel _ => by cases fuel <;> rfl, Perm.refl _, by simp⟩
    | cons mig rest =>
      obtain ⟨skipped, hpass, htaken⟩ := Pass.whole numGpusPerNode mig rest
      have hround : ∀ fuel, groupMigrations numGpusPerNode (fuel + 1) (mig :: rest) =
          (groupMigrations numGpusPerNode fuel ((mig :: rest).foldl (Round.consider numGpusPerNode)
            { remaining := mig :: rest }).remaining).map (_ :: ·) := fun fuel => if_neg hgpus
      generalize (mig :: rest).foldl (Round.consider numGpusPerNode) { remaining := mig :: rest } = round at *
      have hlength := hpass.total.length_eq
      rw [length_append] at hlength
      obtain ⟨rounds, hloop, hperm, hgood⟩ := ih round.remaining.length (by omega) round.remaining rfl
      refine ⟨round.roundMigrations :: rounds, ?_, ?_, ?_⟩
      · intro fuel hfuel
        rw [length_cons] at hfuel hlength
        obtain ⟨fuel, rfl⟩ : ∃ k, fuel = k + 1 := ⟨fuel - 1, by omega⟩
        rw [hround, hloop fuel (by omega)]
        rfl
      · exact (hperm.append_left _).trans hpass.total
      · intro group hgroup
        rcases mem_cons.mp hgroup with rfl | hgroup
        · exact ⟨length_pos_iff.mp htaken, hpass.compatible⟩
        · exact hgood group hgroup

/-- Two migrations off one node need two rounds. -/
theorem groupMigrations_partition_pair :
    groupMigrations 2 2 [⟨"a", 0, 2, 3, 3⟩, ⟨"b", 1, 3, 4, 4⟩] =
        some [[⟨"a", 0, 2, 3, 3⟩], [⟨"b", 1, 3, 4, 4⟩]] ∧
      ∃ rounds, groupMigrations 2 2 [⟨"a", 0, 2, 3, 3⟩, ⟨"b", 1, 3, 4, 4⟩] = some rounds ∧
        rounds.flatten.Perm [⟨"a", 0, 2, 3, 3⟩, ⟨"b", 1, 3, 4, 4⟩] := by
  obtain ⟨rounds, hloop, hperm, -⟩ :=
    groupMigrations_partition 2 (by decide) [⟨"a", 0, 2, 3, 3⟩, ⟨"b", 1, 3, 4, 4⟩]
  exact ⟨by decide, rounds, hloop 2 (by decide), hperm⟩

end Batchgen.Migration
