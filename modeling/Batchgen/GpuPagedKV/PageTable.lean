import Mathlib.Data.List.Basic
import Mathlib.Order.Lattice

/-!
# The GPU page tables

`_GPUPageTableManager` of `batchgen/kv_cache/gpu_paged_kv_manager.py`: the active table, which a rebuild reuses when it
is wide enough and the row order is the same, and the fixed CUDA-graph table, of which a rebuild writes no more than the
columns a row has used.

* `forSlots_apply` — the two row loops write every row once;
* `Shows.rebuild_iff` — a rebuild of a table that shows its page lists shows the new ones unless the longest list of
  the same rows has lost more than one page;
* **`rebuilds_show_iff`** — so a run of rebuilds shows the page lists all along exactly when that never happens;
* `Tracks` — the graph table is the full rewrite of the active rows, and the extents are their lengths;
* **`graphTable_eq_fullRewrite`** — so it is after every run of rebuilds and clears.

A row of the graph table stands with its entry of `_cuda_graph_row_extents`.  The slot views, the flat page list and the
version are left out: no table is computed from them.
-/

namespace Batchgen.GpuPageTable

open Function List

variable {SeqId α : Type}

/-! ### Rows -/

/-- `row[:len(pages)] = pages` -/
def put (pages : List ℤ) (row : ℕ → ℤ) : ℕ → ℤ := fun col => pages[col]?.getD (row col)

/-- `row[start:stop] = -1` -/
def clear (start stop : ℕ) (row : ℕ → ℤ) : ℕ → ℤ := fun col => if start ≤ col ∧ col < stop then -1 else row col

/-- The page list in the leading columns, and `-1` in every other one. -/
def fullRow (pages : List ℤ) : ℕ → ℤ := fun col => pages[col]?.getD (-1)

/-- `for slot, seq_id in enumerate(sequence_ids)`, with a body that rewrites the row of its slot. -/
def forSlots (write : SeqId → α → α) : ℕ → List SeqId → (ℕ → α) → ℕ → α
  | _, [], rows => rows
  | slot, seqId :: seqIds, rows => forSlots write (slot + 1) seqIds (update rows slot (write seqId (rows slot)))

/-- The guards of the source skip writes of no column. -/
theorem put_guarded (pages : List ℤ) (row : ℕ → ℤ) :
    (if pages.length ≠ 0 then put pages row else row) = put pages row := by
  rw [ite_eq_left_iff, not_not, length_eq_zero_iff]
  rintro rfl
  rfl

theorem clear_guarded (start stop : ℕ) (row : ℕ → ℤ) :
    (if start < stop then clear start stop row else row) = clear start stop row := by
  rw [ite_eq_left_iff]
  exact fun hle => funext fun _ => (if_neg (by omega)).symm

theorem fullRow_of_le {pages : List ℤ} {col : ℕ} (h : pages.length ≤ col) : fullRow pages col = -1 := by
  rw [fullRow, getElem?_eq_none h]
  rfl

/-- Pages in front and `-1` behind them, up to `stop`. -/
theorem clear_put (pages : List ℤ) (stop : ℕ) (row : ℕ → ℤ) (col : ℕ) :
    clear pages.length stop (put pages row) col =
      if col < stop ∨ col < pages.length then fullRow pages col else row col := by
  unfold clear put fullRow
  by_cases hlt : col < pages.length
  · simp [hlt, Nat.not_le_of_lt hlt]
  · simp [hlt, Nat.le_of_not_lt hlt]

/-- **The row loop** rewrites the rows of its sequences and no other. -/
theorem forSlots_apply (write : SeqId → α → α) (seqIds : List SeqId) (start : ℕ) (rows : ℕ → α) (slot : ℕ) :
    forSlots write start seqIds rows slot = if slot < start then rows slot
      else (seqIds[slot - start]?).elim (rows slot) fun seqId => write seqId (rows slot) := by
  induction seqIds generalizing start rows with
  | nil => simp [forSlots]
  | cons seqId seqIds ih =>
    rw [forSlots, ih]
    rcases Nat.lt_trichotomy slot start with hlt | rfl | hgt
    · rw [if_pos (Nat.lt_succ_of_lt hlt), if_pos hlt, update_of_ne (Nat.ne_of_lt hlt)]
    · simp
    · rw [if_neg (by omega), if_neg (by omega), update_of_ne (Nat.ne_of_gt hgt)]
      rw [show slot - start = slot - (start + 1) + 1 by omega, getElem?_cons_succ]

/-! ### The manager -/

/-- A device table of the given shape. -/
structure Table where
  rows : ℕ
  cols : ℕ
  cell : ℕ → ℕ → ℤ

/-- A row of the graph table, with the number of columns that were written. -/
structure GraphRow where
  cells : ℕ → ℤ := fun _ => -1
  extent : ℕ := 0

structure Manager (SeqId : Type) where
  graphMaxPagesPerSequence : ℕ
  maxSlots : ℕ
  slotToSeqId : List SeqId := []
  gpuTable : Option Table := none
  cudaGraphTable : Option (ℕ → GraphRow) := none
  cudaGraphTableValid : Bool := false
  cudaGraphSlotCount : ℕ := 0

/-- The states of the sequences: their pages. -/
abbrev Sequences (SeqId : Type) := SeqId → Option (List ℤ)

/-- The pages of a row; a sequence without a state has none. -/
def Sequences.pages (sequences : Sequences SeqId) (seqId : SeqId) : List ℤ := (sequences seqId).getD []

variable {sequenceIds : List SeqId} {sequences : Sequences SeqId} {m : Manager SeqId} {rows : List (List ℤ)}

/-- The most pages of a row. -/
def maxRequired (sequenceIds : List SeqId) (sequences : Sequences SeqId) : ℕ :=
  sequenceIds.foldl (fun most seqId => max most (sequences.pages seqId).length) 0

/-- The columns a rebuild fills. -/
def desiredPages (sequenceIds : List SeqId) (sequences : Sequences SeqId) : ℕ := maxRequired sequenceIds sequences + 1

/-- One row of the fill region. -/
def fillRow (stop : ℕ) (pages : List ℤ) (row : ℕ → ℤ) : ℕ → ℤ :=
  if pages.length = 0 then clear 0 stop row
  else
    let row := put pages row
    if pages.length < stop then clear pages.length stop row else row

/-- One row of the graph table. -/
def updateGraphRow (pages : List ℤ) (row : GraphRow) : GraphRow :=
  let cells := if pages.length ≠ 0 then put pages row.cells else row.cells
  { cells := if pages.length < row.extent then clear pages.length row.extent cells else cells
    extent := pages.length }

/-- A row that no sequence has any more. -/
def clearGraphRow (row : GraphRow) : GraphRow :=
  if row.extent ≠ 0 then { cells := clear 0 row.extent row.cells, extent := 0 } else row

namespace Manager

def ensureCudaGraphTable (m : Manager SeqId) : ℕ → GraphRow := m.cudaGraphTable.getD fun _ => {}

def updateCudaGraphTable (m : Manager SeqId) (sequenceIds : List SeqId) (sequences : Sequences SeqId) : Manager SeqId :=
  if m.maxSlots < sequenceIds.length ∨ m.graphMaxPagesPerSequence < maxRequired sequenceIds sequences then
    { m with cudaGraphTableValid := false }
  else
    let table := forSlots (fun seqId => updateGraphRow (sequences.pages seqId)) 0 sequenceIds m.ensureCudaGraphTable
    -- the slots of the last batch behind those of this one
    let stop := min m.cudaGraphSlotCount m.maxSlots
    { m with
      cudaGraphTable := some fun slot =>
        if sequenceIds.length ≤ slot ∧ slot < stop then clearGraphRow (table slot) else table slot
      cudaGraphTableValid := true
      cudaGraphSlotCount := sequenceIds.length }

/-- `clear_cuda_graph_rows`; there are `max_slots` extents. -/
def clearCudaGraphRows (m : Manager SeqId) : Manager SeqId :=
  { m with cudaGraphTable := m.cudaGraphTable.map fun table slot =>
      if slot < m.maxSlots then clearGraphRow (table slot) else table slot }

variable [DecidableEq SeqId]

/-- The table that a rebuild can reuse. -/
def reusable (m : Manager SeqId) (sequenceIds : List SeqId) (desiredPages : ℕ) : Option Table :=
  m.gpuTable.filter fun table =>
    table.rows = sequenceIds.length ∧ desiredPages ≤ table.cols ∧ m.slotToSeqId = sequenceIds

/-- The table that is filled, reused or new. -/
def startTable (m : Manager SeqId) (sequenceIds : List SeqId) (desiredPages : ℕ) : Table :=
  (m.reusable sequenceIds desiredPages).getD ⟨sequenceIds.length, desiredPages, fun _ _ => -1⟩

def rebuild (m : Manager SeqId) (sequenceIds : List SeqId) (sequences : Sequences SeqId) : Manager SeqId :=
  let table := m.startTable sequenceIds (desiredPages sequenceIds sequences)
  let filled := forSlots (fun seqId => fillRow (desiredPages sequenceIds sequences) (sequences.pages seqId)) 0
    sequenceIds table.cell
  { m with slotToSeqId := sequenceIds, gpuTable := some { table with cell := filled } }.updateCudaGraphTable
    sequenceIds sequences

end Manager

/-! ### The active table -/

theorem maxRequired_eq (sequenceIds : List SeqId) (sequences : Sequences SeqId) : maxRequired sequenceIds sequences =
    (sequenceIds.map fun seqId => (sequences.pages seqId).length).max?.getD 0 := by
  rw [← Nat.zero_max (Option.getD _ 0), ← foldl_max, foldl_map, maxRequired]

theorem length_lt_desiredPages {seqId : SeqId} (hmem : seqId ∈ sequenceIds) :
    (sequences.pages seqId).length < desiredPages sequenceIds sequences := by
  have hle := le_max?_getD_of_mem (k := 0) (mem_map_of_mem (f := fun seqId => (sequences.pages seqId).length) hmem)
  rw [desiredPages, maxRequired_eq]
  omega

/-- Some row has the most pages. -/
theorem exists_length_eq_maxRequired (h : 0 < maxRequired sequenceIds sequences) :
    ∃ seqId ∈ sequenceIds, (sequences.pages seqId).length = maxRequired sequenceIds sequences := by
  rw [maxRequired_eq] at h ⊢
  cases hmax : (sequenceIds.map fun seqId => (sequences.pages seqId).length).max? with
  | none => simp [hmax] at h
  | some most => exact mem_map.mp (max?_mem hmax)

theorem fillRow_apply {stop : ℕ} {pages : List ℤ} (hlt : pages.length < stop) (row : ℕ → ℤ) (col : ℕ) :
    fillRow stop pages row col = if col < stop then fullRow pages col else row col := by
  have hrow : fillRow stop pages row = clear pages.length stop (put pages row) := by
    by_cases hnil : pages.length = 0
    · rw [length_eq_zero_iff.mp hnil]
      rfl
    · rw [fillRow, if_neg hnil]
      exact if_pos hlt
  rw [hrow, clear_put]
  by_cases hcol : col < stop
  · simp [hcol]
  · rw [if_neg (by omega), if_neg hcol]

/-- **Every row of the active table is its page list followed by `-1`.** -/
def Shows (m : Manager SeqId) (sequenceIds : List SeqId) (sequences : Sequences SeqId) : Prop :=
  ∃ table, m.gpuTable = some table ∧ table.rows = sequenceIds.length ∧
    (∀ seqId ∈ sequenceIds, (sequences.pages seqId).length ≤ table.cols) ∧
    ∀ slot seqId, sequenceIds[slot]? = some seqId → ∀ col < table.cols,
      table.cell slot col = fullRow (sequences.pages seqId) col

section

variable [DecidableEq SeqId]

/-- The table a rebuild starts from has the rows and at least the columns it fills. -/
theorem startTable_shape (m : Manager SeqId) (sequenceIds : List SeqId) (stop : ℕ) :
    (m.startTable sequenceIds stop).rows = sequenceIds.length ∧ stop ≤ (m.startTable sequenceIds stop).cols := by
  unfold Manager.startTable
  cases hreuse : m.reusable sequenceIds stop with
  | none => exact ⟨rfl, Nat.le_refl stop⟩
  | some table =>
    obtain ⟨hrows, hcols, -⟩ := of_decide_eq_true (Option.filter_eq_some_iff.mp hreuse).2
    exact ⟨hrows, hcols⟩

/-- What is filled is right, so the rest of the table decides. -/
theorem rebuild_shows_iff_clean (m : Manager SeqId) (sequenceIds : List SeqId) (sequences : Sequences SeqId)
    {table : Table} (htable : m.startTable sequenceIds (desiredPages sequenceIds sequences) = table) :
    Shows (m.rebuild sequenceIds sequences) sequenceIds sequences ↔ ∀ slot < sequenceIds.length, ∀ col < table.cols,
      desiredPages sequenceIds sequences ≤ col → table.cell slot col = -1 := by
  obtain ⟨hrows, hcols⟩ := htable ▸ startTable_shape m sequenceIds (desiredPages sequenceIds sequences)
  have hgpu : (m.rebuild sequenceIds sequences).gpuTable = some { table with
      cell := forSlots (fun seqId => fillRow (desiredPages sequenceIds sequences) (sequences.pages seqId)) 0 sequenceIds
        table.cell } := by
    rw [Manager.rebuild, htable, Manager.updateCudaGraphTable]
    split <;> rfl
  have hcell : ∀ slot seqId, sequenceIds[slot]? = some seqId → ∀ col,
      forSlots (fun seqId => fillRow (desiredPages sequenceIds sequences) (sequences.pages seqId)) 0 sequenceIds
        table.cell slot col = if col < desiredPages sequenceIds sequences then fullRow (sequences.pages seqId) col
          else table.cell slot col := by
    intro slot seqId hget col
    rw [forSlots_apply, if_neg (Nat.not_lt_zero _), Nat.sub_zero, hget]
    exact fillRow_apply (length_lt_desiredPages (mem_of_getElem? hget)) _ _
  have hbehind : ∀ seqId ∈ sequenceIds, ∀ col, desiredPages sequenceIds sequences ≤ col →
      fullRow (sequences.pages seqId) col = -1 := fun seqId hmem col hcol =>
    fullRow_of_le ((length_lt_desiredPages hmem).le.trans hcol)
  constructor
  · rintro ⟨shown, hsome, -, -, hshown⟩ slot hslot col hcol hle
    obtain rfl := Option.some.inj (hgpu.symm.trans hsome)
    have hget := getElem?_eq_getElem hslot
    rw [← hbehind _ (getElem_mem hslot) col hle, ← hshown slot _ hget col hcol]
    exact ((hcell slot _ hget col).trans (if_neg (by omega))).symm
  · intro hclean
    refine ⟨_, hgpu, hrows, fun seqId hmem => (length_lt_desiredPages hmem).le.trans hcols, ?_⟩
    intro slot seqId hget col hcol
    refine (hcell slot seqId hget col).trans ?_
    split
    · rfl
    · have hslot : slot < sequenceIds.length := (List.getElem?_eq_some_iff.mp hget).1
      rw [hbehind seqId (mem_of_getElem? hget) col (by omega)]
      exact hclean slot hslot col hcol (by omega)

/-- A new table has nothing behind the columns that are filled. -/
theorem rebuild_shows_of_new (h : m.reusable sequenceIds (desiredPages sequenceIds sequences) = none) :
    Shows (m.rebuild sequenceIds sequences) sequenceIds sequences := by
  rw [rebuild_shows_iff_clean m sequenceIds sequences (by rw [Manager.startTable, h, Option.getD])]
  exact fun _ _ col hcol hle => absurd hcol (Nat.not_lt_of_le hle)

/-- The arguments of a rebuild: the rows and the states of the sequences. -/
abbrev Rebuild (SeqId : Type) := List SeqId × Sequences SeqId

/-- The longest list of the same rows loses at most one page. -/
def ShrinksByOne (before call : Rebuild SeqId) : Prop :=
  before.1 = call.1 → maxRequired before.1 before.2 ≤ maxRequired call.1 call.2 + 1

instance (before call : Rebuild SeqId) : Decidable (ShrinksByOne before call) := inferInstanceAs (Decidable (_ → _))

/-- **One rebuild more.**  The table shows the page lists of the rebuild before, so what it has behind the columns that
are filled is what the longest of them has there. -/
theorem Shows.rebuild_iff {before : Rebuild SeqId} (h : Shows m before.1 before.2) (hslots : m.slotToSeqId = before.1)
    (hpages : ∀ seqId ∈ before.1, -1 ∉ before.2.pages seqId) (call : Rebuild SeqId) :
    Shows (m.rebuild call.1 call.2) call.1 call.2 ↔ ShrinksByOne before call := by
  obtain ⟨rows, before⟩ := before
  obtain ⟨sequenceIds, sequences⟩ := call
  obtain ⟨table, htable, hrows, hcols, hcell⟩ := h
  dsimp only [ShrinksByOne] at *
  by_cases hsame : rows = sequenceIds
  · subst hsame
    rw [forall_prop_of_true rfl]
    -- a longest list that loses more leaves its last page behind the columns, in a table that is wide enough
    have hlast : ¬ maxRequired rows before ≤ maxRequired rows sequences + 1 →
        desiredPages rows sequences ≤ table.cols ∧ ∃ slot < rows.length, ∃ col < table.cols,
          desiredPages rows sequences ≤ col ∧ table.cell slot col ≠ -1 := by
      intro hless
      have hpos : 0 < maxRequired rows before := by omega
      obtain ⟨seqId, hmem, hlength⟩ := exists_length_eq_maxRequired hpos
      obtain ⟨slot, hslot, hget⟩ := getElem_of_mem hmem
      have hwide := hcols seqId hmem
      have hcol : maxRequired rows before - 1 < (before.pages seqId).length := by omega
      unfold desiredPages
      refine ⟨by omega, slot, hslot, maxRequired rows before - 1, by omega, by omega, fun hpage => ?_⟩
      have hrow := List.getElem?_eq_some_iff.mpr ⟨hslot, hget⟩
      rw [hcell slot seqId hrow (maxRequired rows before - 1) (by omega), fullRow, getElem?_eq_getElem hcol] at hpage
      exact hpages seqId hmem (hpage ▸ getElem_mem hcol)
    cases hreuse : m.reusable rows (desiredPages rows sequences) with
    | none =>
      refine iff_of_true (rebuild_shows_of_new hreuse) (not_not.mp fun hless => ?_)
      rw [Manager.reusable, htable, Option.filter_eq_none_iff] at hreuse
      exact hreuse table rfl (decide_eq_true ⟨hrows, (hlast hless).1, hslots⟩)
    | some reused =>
      obtain rfl : reused = table := Option.some.inj ((Option.filter_eq_some_iff.mp hreuse).1.symm.trans htable)
      rw [rebuild_shows_iff_clean m rows sequences (by rw [Manager.startTable, hreuse, Option.getD])]
      constructor
      · intro hclean
        by_contra hless
        obtain ⟨-, slot, hslot, col, hcol, hbehind, hpage⟩ := hlast hless
        exact hpage (hclean slot hslot col hcol hbehind)
      · intro hle slot hslot col hcol hbehind
        rw [hcell slot _ (getElem?_eq_getElem hslot) col hcol]
        have hlength : (before.pages _).length < _ := length_lt_desiredPages (getElem_mem hslot)
        unfold desiredPages at hbehind hlength
        exact fullRow_of_le (by omega)
  · have hnew : m.reusable sequenceIds (desiredPages sequenceIds sequences) = none :=
      Option.filter_eq_none_iff.mpr fun other _ => by simp [hslots, hsame]
    exact iff_of_true (rebuild_shows_of_new hnew) fun heq => absurd heq hsame

theorem rebuild_slotToSeqId (m : Manager SeqId) (sequenceIds : List SeqId) (sequences : Sequences SeqId) :
    (m.rebuild sequenceIds sequences).slotToSeqId = sequenceIds := by
  rw [Manager.rebuild, Manager.updateCudaGraphTable]
  split <;> rfl

/-- **After each rebuild of the run the active table shows its page lists.** -/
def EachShows (m : Manager SeqId) : List (Rebuild SeqId) → Prop
  | [] => True
  | call :: calls => Shows (m.rebuild call.1 call.2) call.1 call.2 ∧ EachShows (m.rebuild call.1 call.2) calls

theorem Shows.each_iff {before : Rebuild SeqId} {calls : List (Rebuild SeqId)} (h : Shows m before.1 before.2)
    (hslots : m.slotToSeqId = before.1)
    (hpages : ∀ call ∈ before :: calls, ∀ seqId ∈ call.1, -1 ∉ call.2.pages seqId) :
    EachShows m calls ↔ (before :: calls).IsChain ShrinksByOne := by
  induction calls generalizing m before with
  | nil => exact iff_of_true trivial (.singleton before)
  | cons call calls ih =>
    have hone := h.rebuild_iff hslots (hpages before mem_cons_self) call
    rw [isChain_cons_cons, EachShows, hone]
    refine and_congr_right fun hshrinks => ?_
    exact ih (hone.mpr hshrinks) (rebuild_slotToSeqId ..) fun other hother => hpages other (mem_cons_of_mem _ hother)

/-- **When the active table is right**: a run of rebuilds shows the page lists after each of them exactly when no two
successive ones have the same rows and a longest list that loses more than one page. -/
theorem rebuilds_show_iff (maxPages maxSlots : ℕ) (calls : List (Rebuild SeqId))
    (hpages : ∀ call ∈ calls, ∀ seqId ∈ call.1, -1 ∉ call.2.pages seqId) :
    EachShows ⟨maxPages, maxSlots, [], none, none, false, 0⟩ calls ↔ calls.IsChain ShrinksByOne := by
  cases calls with
  | nil => exact iff_of_true trivial .nil
  | cons call calls =>
    have hfirst : Shows (Manager.rebuild ⟨maxPages, maxSlots, [], none, none, false, 0⟩ call.1 call.2) call.1 call.2 :=
      rebuild_shows_of_new rfl
    rw [EachShows, and_iff_right hfirst]
    exact hfirst.each_iff (rebuild_slotToSeqId ..) hpages

/-- A table that is made, reused by a shorter and by a longer list, widened, and made anew for other rows. -/
theorem rebuilds_show_widths : EachShows ⟨8, 4, [], none, none, false, 0⟩
    ([([0, 1], fun id => some [id, 6, 7]), ([0, 1], fun id => some [id, 6]), ([0, 1], fun id => some [id, 6, 8]),
      ([0, 1], fun id => some [id, 6, 8, 9, 10]), ([1], fun _ => some [5])] : List (Rebuild ℕ)) :=
  (rebuilds_show_iff 8 4 _ (by decide)).mpr (by decide)

/-- A sequence with three pages is rebuilt with one: its third page is still in the table. -/
theorem rebuild_keeps_stale_page :
    (((({ graphMaxPagesPerSequence := 8, maxSlots := 4 } : Manager ℕ).rebuild [0] fun _ => some [5, 6, 7]).rebuild [0]
        fun _ => some [5]).gpuTable.map fun table => (table.rows, (List.range table.cols).map (table.cell 0))) =
      some (1, [5, -1, 7, -1]) := by
  decide

end

/-! ### The graph table -/

/-- The graph row of a page list. -/
def GraphRow.full (pages : List ℤ) : GraphRow := ⟨fullRow pages, pages.length⟩

/-- A rewrite of all columns of all slots. -/
def fullRewrite (rows : List (List ℤ)) (slot : ℕ) : ℕ → ℤ := fullRow (rows[slot]?.getD [])

theorem updateGraphRow_full (pages old : List ℤ) : updateGraphRow pages (.full old) = .full pages := by
  dsimp only [updateGraphRow, GraphRow.full]
  rw [put_guarded, clear_guarded]
  refine congrArg (GraphRow.mk · pages.length) (funext fun col => (clear_put pages old.length _ col).trans ?_)
  split
  · rfl
  · rw [fullRow_of_le (by omega), fullRow_of_le (by omega)]

theorem clearGraphRow_full (old : List ℤ) : clearGraphRow (.full old) = .full [] := by
  unfold clearGraphRow
  split
  · have hcells := clear_put [] old.length (fullRow old)
    refine congrArg (GraphRow.mk · 0) (funext fun col => (hcells col).trans ?_)
    split
    · rfl
    · rw [fullRow_of_le (by omega)]
      rfl
  · rename_i hnil
    rw [length_eq_zero_iff.mp (not_not.mp hnil)]

/-- **The graph table of the active rows**: every row is the full rewrite of its pages, and no row is active behind the
slot count. -/
structure Tracks (m : Manager SeqId) (rows : List (List ℤ)) : Prop where
  row : ∀ slot, m.ensureCudaGraphTable slot = .full (rows[slot]?.getD [])
  count : rows.length ≤ m.cudaGraphSlotCount
  slots : m.cudaGraphSlotCount ≤ m.maxSlots

theorem Tracks.behind (h : Tracks m rows) {slot : ℕ} (hslot : m.cudaGraphSlotCount ≤ slot) :
    m.ensureCudaGraphTable slot = .full [] := by
  rw [h.row, getElem?_eq_none (h.count.trans hslot)]
  rfl

theorem Tracks.clearCudaGraphRows (h : Tracks m rows) : Tracks m.clearCudaGraphRows [] := by
  refine ⟨fun slot => ?_, Nat.zero_le _, h.slots⟩
  have hrow : m.clearCudaGraphRows.ensureCudaGraphTable slot =
      if slot < m.maxSlots then clearGraphRow (m.ensureCudaGraphTable slot) else m.ensureCudaGraphTable slot := by
    unfold Manager.clearCudaGraphRows Manager.ensureCudaGraphTable
    cases m.cudaGraphTable with
    | none => split <;> rfl
    | some table => rfl
  rw [hrow]
  split
  · rw [h.row, clearGraphRow_full]
    rfl
  · exact h.behind (h.slots.trans (by omega))

theorem Tracks.updateCudaGraphTable (h : Tracks m rows) (hslots : sequenceIds.length ≤ m.maxSlots)
    (hpages : maxRequired sequenceIds sequences ≤ m.graphMaxPagesPerSequence) :
    Tracks (m.updateCudaGraphTable sequenceIds sequences) (sequenceIds.map sequences.pages) := by
  rw [Manager.updateCudaGraphTable, if_neg (by omega)]
  refine ⟨fun slot => ?_, by simp, hslots⟩
  dsimp only [Manager.ensureCudaGraphTable, Option.getD_some]
  rw [forSlots_apply, if_neg (Nat.not_lt_zero _), Nat.sub_zero, getElem?_map]
  by_cases hslot : slot < sequenceIds.length
  · rw [if_neg (by omega), getElem?_eq_getElem hslot]
    exact (congrArg _ (h.row slot)).trans (updateGraphRow_full _ _)
  · rw [getElem?_eq_none (Nat.le_of_not_lt hslot)]
    dsimp only [Option.elim_none, Option.map_none, Option.getD_none]
    split
    · exact (congrArg _ (h.row slot)).trans (clearGraphRow_full _)
    · have hcount := h.slots
      exact h.behind (by omega)

inductive Call (SeqId : Type)
  | rebuild (sequenceIds : List SeqId) (sequences : Sequences SeqId)
  | clearCudaGraphRows

/-- The page lists that are active after the call. -/
def Call.activeRows : Call SeqId → List (List ℤ)
  | .rebuild sequenceIds sequences => sequenceIds.map sequences.pages
  | .clearCudaGraphRows => []

/-- The call fits the graph table of the given shape. -/
def Call.Fits (maxSlots maxPages : ℕ) : Call SeqId → Prop
  | .rebuild sequenceIds sequences => sequenceIds.length ≤ maxSlots ∧ maxRequired sequenceIds sequences ≤ maxPages
  | .clearCudaGraphRows => True

variable [DecidableEq SeqId]

def Call.run (m : Manager SeqId) : Call SeqId → Manager SeqId
  | .rebuild sequenceIds sequences => m.rebuild sequenceIds sequences
  | .clearCudaGraphRows => m.clearCudaGraphRows

/-- **One call** leaves the graph table of its rows, and the shape. -/
theorem Tracks.run (h : Tracks m rows) (call : Call SeqId) (hfits : call.Fits m.maxSlots m.graphMaxPagesPerSequence) :
    Tracks (call.run m) call.activeRows ∧ (call.run m).maxSlots = m.maxSlots ∧
      (call.run m).graphMaxPagesPerSequence = m.graphMaxPagesPerSequence := by
  cases call with
  | rebuild sequenceIds sequences =>
    refine ⟨Tracks.updateCudaGraphTable ⟨h.row, h.count, h.slots⟩ hfits.1 hfits.2, ?_⟩
    unfold Call.run Manager.rebuild Manager.updateCudaGraphTable
    dsimp only
    split <;> exact ⟨rfl, rfl⟩
  | clearCudaGraphRows => exact ⟨h.clearCudaGraphRows, rfl, rfl⟩

/-- **After every run of calls that fit**, the graph table is the full rewrite of the rows of the last call. -/
theorem graphTable_eq_fullRewrite (maxSlots maxPages : ℕ) (calls : List (Call SeqId)) (last : Call SeqId)
    (hfits : ∀ call ∈ calls ++ [last], call.Fits maxSlots maxPages) (slot col : ℕ) :
    (((calls ++ [last]).foldl Call.run ⟨maxPages, maxSlots, [], none, none, false, 0⟩).ensureCudaGraphTable slot).cells
      col = fullRewrite last.activeRows slot col := by
  have hrun : ∀ (calls : List (Call SeqId)) (m : Manager SeqId) (rows : List (List ℤ)), Tracks m rows →
      (∀ call ∈ calls ++ [last], call.Fits m.maxSlots m.graphMaxPagesPerSequence) →
      Tracks ((calls ++ [last]).foldl Call.run m) last.activeRows := by
    intro calls
    induction calls with
    | nil => exact fun m rows h hfits => (h.run last (hfits last (by simp))).1
    | cons call calls ih =>
      intro m rows h hfits
      obtain ⟨hnext, hslots, hpages⟩ := h.run call (hfits call (by simp))
      refine ih _ _ hnext fun other hother => ?_
      rw [hslots, hpages]
      exact hfits other (mem_cons_of_mem _ hother)
  have hstart : Tracks (⟨maxPages, maxSlots, [], none, none, false, 0⟩ : Manager SeqId) [] :=
    ⟨fun _ => rfl, Nat.le_refl 0, Nat.zero_le _⟩
  rw [(hrun calls _ _ hstart hfits).row]
  rfl

/-- A row that shrinks, in a table of two slots and four columns. -/
theorem graphTable_eq_fullRewrite_shrunk :
    (((([.rebuild [0, 1] fun id => some [id, 6, 7], .rebuild [1] fun _ => some [5]] : List (Call ℕ)).foldl Call.run
      ⟨4, 2, [], none, none, false, 0⟩).ensureCudaGraphTable 0).cells 2) = -1 :=
  graphTable_eq_fullRewrite 2 4 [.rebuild [0, 1] fun id => some [id, 6, 7]] (.rebuild [1] fun _ => some [5])
    (by
      intro call hcall
      simp only [singleton_append, mem_cons, not_mem_nil, or_false] at hcall
      rcases hcall with rfl | rfl <;> exact ⟨by decide, by decide⟩) 0 2

end Batchgen.GpuPageTable
