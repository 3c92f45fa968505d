import Batchgen.Library.Outcome
import Mathlib.Algebra.Order.Ring.Int

/-!
# The weight load plan

The parameter server reads every `.bin` file of a directory into one fixed buffer, each file on a 4 KiB boundary.
`plan_weight_load` computes the starts with saturating 64-bit additions and rejects the load when a file, or a
tensor in one, would end past its bound; `check_weight_read_bound` guards each read.  `exactEnds` are the ends
without any bound on the integers.
-/

namespace Batchgen.WeightLoadPlan

open List

structure WeightTensorExtent where
  name : String
  offset : Int64
  byteSize : Int64

structure WeightFileExtent where
  jsonPath : String
  fileName : String
  totalByteSize : Int64
  tensors : List WeightTensorExtent

def kWeightFileAlignment : Int64 := 4096

def saturatingAdd (a b : Int64) : Int64 :=
  if b > Int64.maxValue - a then Int64.maxValue else a + b

def alignUp (value : Int64) : Int64 :=
  saturatingAdd value (kWeightFileAlignment - 1) &&& ~~~(kWeightFileAlignment - 1)

/-- End of the last file, with every earlier file padded to 4 KiB.  It is only reported. -/
def plannedWeightLoadBytes (files : List WeightFileExtent) : Int64 :=
  (files.foldl (fun (st : Int64 × Int64) file =>
    let finish := saturatingAdd st.1 file.totalByteSize
    (alignUp finish, finish)) (0, 0)).2

def checkTensor (file : WeightFileExtent) (tensor : WeightTensorExtent) : Except String Unit :=
  if tensor.offset < 0 ∨ tensor.byteSize < 0 ∨ tensor.offset > file.totalByteSize - tensor.byteSize then
    -- of a negative offset the sum overflows in the source; here it wraps
    let finish := saturatingAdd tensor.offset tensor.byteSize
    .error (s!"WeightLoadPlanError: tensor {tensor.name} in {file.jsonPath} spans [{tensor.offset}, {finish})" ++
      s!" outside the file's total_byte_size {file.totalByteSize}")
  else .ok ()

def checkFile (file : WeightFileExtent) : Except String Unit :=
  if file.totalByteSize < 0 then
    .error s!"WeightLoadPlanError: {file.jsonPath} declares a negative total_byte_size {file.totalByteSize}"
  else file.tensors.forM (checkTensor file)

/-- The loop over the files still to place, from `offset`; the other arguments are for the message. -/
def planFrom (bufferBytes plannedTotal : Int64) (count : ℕ) : Int64 → List WeightFileExtent → Except String (List Int64)
  | _, [] => .ok []
  | offset, file :: rest =>
    let finish := saturatingAdd offset file.totalByteSize
    if finish > bufferBytes then
      .error (s!"WeightLoadPlanError: planned weight load of {plannedTotal} bytes over {count} files exceeds the " ++
        s!"{bufferBytes}-byte weight buffer; first file past the bound: {file.jsonPath} ({file.fileName}, " ++
        s!"{file.totalByteSize} bytes at buffer offset {offset}, ending at {finish})")
    else do
      let starts ← planFrom bufferBytes plannedTotal count (alignUp finish) rest
      return offset :: starts

def planWeightLoad (files : List WeightFileExtent) (bufferBytes : Int64) : Except String (List Int64) :=
  if bufferBytes ≤ 0 then
    .error s!"WeightLoadPlanError: weight buffer size must be positive, got {bufferBytes}"
  else do
    files.forM checkFile
    planFrom bufferBytes (plannedWeightLoadBytes files) files.length 0 files

def checkWeightReadBound (destOffset nbytes bufferBytes : Int64) (filePath : String) : Except String Unit :=
  if destOffset < 0 ∨ nbytes < 0 ∨ destOffset > bufferBytes - nbytes then
    .error (s!"WeightLoadPlanError: read of {nbytes} bytes from {filePath} at buffer offset {destOffset} " ++
      s!"would pass the {bufferBytes}-byte weight buffer")
  else .ok ()

/-! ### The exact plan -/

/-- The tensor lies inside its file. -/
def WeightTensorExtent.Inside (tensor : WeightTensorExtent) (file : WeightFileExtent) : Prop :=
  0 ≤ tensor.offset.toInt ∧ 0 ≤ tensor.byteSize.toInt ∧
    tensor.offset.toInt + tensor.byteSize.toInt ≤ file.totalByteSize.toInt

/-- The next multiple of the alignment. -/
def roundUp (n : ℤ) : ℤ := (n + 4095) / 4096 * 4096

/-- The ends of the files, each starting at the previous end rounded up. -/
def exactEnds : ℤ → List WeightFileExtent → List ℤ
  | _, [] => []
  | start, file :: rest =>
    (start + file.totalByteSize.toInt) :: exactEnds (roundUp (start + file.totalByteSize.toInt)) rest

/-- The files lie on aligned starts, in order and without overlap, between `lower` and `upper`. -/
structure Placed (lower upper : ℤ) (starts : List Int64) (files : List WeightFileExtent) : Prop where
  length : starts.length = files.length
  aligned : ∀ start ∈ starts, 4096 ∣ start.toInt
  inside : ∀ p ∈ starts.zip files, lower ≤ p.1.toInt ∧ p.1.toInt + p.2.totalByteSize.toInt ≤ upper
  ordered : (starts.zip files).Pairwise fun p q => p.1.toInt + p.2.totalByteSize.toInt ≤ q.1.toInt

/-! ### The arithmetic is exact below the bound -/

variable {a b : Int64}

theorem toInt_sub_of_nonneg (ha : 0 ≤ a.toInt) (hb : 0 ≤ b.toInt) : (a - b).toInt = a.toInt - b.toInt := by
  have := a.toInt_lt
  have := b.toInt_lt
  rw [Int64.toInt_sub, Int.bmod_eq_of_le (by omega) (by omega)]

theorem toInt_add_of_lt (ha : 0 ≤ a.toInt) (hb : 0 ≤ b.toInt) (h : a.toInt + b.toInt < 2 ^ 63) :
    (a + b).toInt = a.toInt + b.toInt := by
  rw [Int64.toInt_add, Int.bmod_eq_of_le (by omega) (by omega)]

theorem saturatingAdd_toInt (ha : 0 ≤ a.toInt) (hb : 0 ≤ b.toInt) :
    (saturatingAdd a b).toInt = min (a.toInt + b.toInt) (2 ^ 63 - 1) := by
  have hmax := Int64.toInt_maxValue
  have hroom := toInt_sub_of_nonneg (a := Int64.maxValue) (by omega) ha
  unfold saturatingAdd
  split
  · next h =>
    have := Int64.lt_iff_toInt_lt.mp h
    omega
  · next h =>
    have := mt Int64.lt_iff_toInt_lt.mpr h
    rw [toInt_add_of_lt ha hb (by omega)]
    omega

/-- Masking the low bits of a non-negative value rounds it down. -/
theorem and_not_toInt (ha : 0 ≤ a.toInt) : (a &&& ~~~4095).toInt = a.toInt / 4096 * 4096 := by
  have hmask : (~~~4095 : Int64).toBitVec = BitVec.allOnes 64 <<< 12 := by decide
  have hlt := a.toBitVec.isLt
  have hnat : 2 * a.toBitVec.toNat < 2 ^ 64 := by
    by_contra hbig
    rw [← a.toInt_toBitVec, BitVec.toInt_eq_toNat_cond, if_neg hbig] at ha
    omega
  rw [← Int64.toInt_toBitVec, ← a.toInt_toBitVec, Int64.toBitVec_and, hmask, ← BitVec.shiftLeft_ushiftRight,
    BitVec.toInt_eq_toNat_of_lt hnat, BitVec.toInt_eq_toNat_of_lt]
  all_goals
    simp only [BitVec.toNat_shiftLeft, BitVec.toNat_ushiftRight, Nat.shiftRight_eq_div_pow, Nat.shiftLeft_eq]
    omega

theorem alignUp_toInt (ha : 0 ≤ a.toInt) (h : a.toInt ≤ 2 ^ 62) : (alignUp a).toInt = roundUp a.toInt := by
  have hsum := saturatingAdd_toInt ha (b := kWeightFileAlignment - 1) (by decide)
  rw [show (kWeightFileAlignment - 1).toInt = 4095 by decide, min_eq_left (by omega)] at hsum
  rw [alignUp, show kWeightFileAlignment - 1 = 4095 by decide]
  rw [show kWeightFileAlignment - 1 = 4095 by decide] at hsum
  rw [and_not_toInt (by omega), hsum, roundUp]

/-! ### The checks -/

theorem checkTensor_ok {file : WeightFileExtent} {tensor : WeightTensorExtent} (h : 0 ≤ file.totalByteSize.toInt) :
    checkTensor file tensor = .ok () ↔ tensor.Inside file := by
  unfold checkTensor WeightTensorExtent.Inside
  simp only [gt_iff_lt, Int64.lt_iff_toInt_lt, Int64.toInt_zero]
  split
  · next hbad =>
    refine iff_of_false (by simp) ?_
    rintro ⟨hoffset, hsize, hend⟩
    rw [toInt_sub_of_nonneg h hsize] at hbad
    omega
  · next hgood =>
    have hsize : 0 ≤ tensor.byteSize.toInt := by omega
    rw [toInt_sub_of_nonneg h hsize] at hgood
    exact iff_of_true rfl (by omega)

theorem checkFile_ok {file : WeightFileExtent} :
    checkFile file = .ok () ↔ 0 ≤ file.totalByteSize.toInt ∧ ∀ tensor ∈ file.tensors, tensor.Inside file := by
  unfold checkFile
  simp only [Int64.lt_iff_toInt_lt, Int64.toInt_zero]
  split
  · next hneg => exact iff_of_false (by simp) (by omega)
  · next hnonneg =>
    have hnonneg := not_lt.mp hnonneg
    rw [Outcome.except_forM_ok]
    simp only [checkTensor_ok hnonneg, hnonneg, true_and]

/-! ### The plan -/

section

variable {bufferBytes plannedTotal offset : Int64} {count : ℕ} {files : List WeightFileExtent}

theorem Placed.cons {lower upper : ℤ} {start : Int64} {starts : List Int64} {file : WeightFileExtent}
    (hlower : lower ≤ start.toInt) (haligned : 4096 ∣ start.toInt) (hsize : 0 ≤ file.totalByteSize.toInt)
    (hupper : start.toInt + file.totalByteSize.toInt ≤ upper)
    (h : Placed (roundUp (start.toInt + file.totalByteSize.toInt)) upper starts files) :
    Placed lower upper (start :: starts) (file :: files) := by
  have hnext : start.toInt + file.totalByteSize.toInt ≤ roundUp (start.toInt + file.totalByteSize.toInt) := by
    unfold roundUp
    omega
  constructor
  · simp [h.length]
  · exact forall_mem_cons.mpr ⟨haligned, h.aligned⟩
  · refine forall_mem_cons.mpr ⟨⟨hlower, hupper⟩, fun p hp => ?_⟩
    have := h.inside p hp
    omega
  · refine pairwise_cons.mpr ⟨fun p hp => ?_, h.ordered⟩
    have := h.inside p hp
    dsimp only
    omega

/-- **The loop places the files at their exact ends, or some exact end is past the buffer.**  The additions do not
saturate before the bound is passed. -/
theorem planFrom_cases (hbuffer : bufferBytes.toInt ≤ 2 ^ 62) (hsizes : ∀ file ∈ files, 0 ≤ file.totalByteSize.toInt)
    (hoffset : 0 ≤ offset.toInt) (haligned : 4096 ∣ offset.toInt) :
    (∃ starts, planFrom bufferBytes plannedTotal count offset files = .ok starts ∧
      (∀ finish ∈ exactEnds offset.toInt files, finish ≤ bufferBytes.toInt) ∧
      Placed offset.toInt bufferBytes.toInt starts files) ∨
    (∃ e, planFrom bufferBytes plannedTotal count offset files = .error e) ∧
      ∃ finish ∈ exactEnds offset.toInt files, bufferBytes.toInt < finish := by
  induction files generalizing offset with
  | nil => exact Or.inl ⟨[], rfl, by simp [exactEnds], by simp, by simp, by simp, by simp⟩
  | cons file rest ih =>
    obtain ⟨hsize, hrest⟩ := forall_mem_cons.mp hsizes
    have hfinish := saturatingAdd_toInt hoffset hsize
    simp only [planFrom, gt_iff_lt, Int64.lt_iff_toInt_lt, exactEnds]
    split
    · next hover => exact Or.inr ⟨⟨_, rfl⟩, _, mem_cons_self, by omega⟩
    · next hfits =>
      have hexact : (saturatingAdd offset file.totalByteSize).toInt = offset.toInt + file.totalByteSize.toInt := by
        omega
      have hnext := alignUp_toInt (a := saturatingAdd offset file.totalByteSize) (by omega) (by omega)
      rw [hexact] at hnext
      have ih := @ih (alignUp (saturatingAdd offset file.totalByteSize)) hrest
      rw [hnext] at ih
      have ih := ih (by rw [roundUp]; omega) (Int.dvd_mul_left _ _)
      rcases ih with ⟨starts, hrun, hends, hplaced⟩ | ⟨⟨e, hrun⟩, finish, hmem, hover⟩
      · refine Or.inl ⟨offset :: starts, by rw [hrun]; rfl, forall_mem_cons.mpr ⟨by omega, hends⟩, ?_⟩
        exact hplaced.cons le_rfl haligned hsize (by omega)
      · exact Or.inr ⟨⟨e, by rw [hrun]; rfl⟩, finish, mem_cons_of_mem _ hmem, hover⟩

end

/-- **The plan is rejected exactly when a size is negative, a tensor leaves its file or an exact end passes the
buffer**; a plan that is returned places the files in order, without overlap, and every read of a tensor passes its
guard. -/
theorem planWeightLoad_exact (files : List WeightFileExtent) (bufferBytes : Int64) (hpos : 1 ≤ bufferBytes.toInt)
    (hbuffer : bufferBytes.toInt ≤ 2 ^ 62) :
    ((∃ e, planWeightLoad files bufferBytes = .error e) ↔
      (∃ file ∈ files, file.totalByteSize.toInt < 0) ∨
      (∃ file ∈ files, ∃ tensor ∈ file.tensors, ¬ tensor.Inside file) ∨
      ∃ finish ∈ exactEnds 0 files, bufferBytes.toInt < finish) ∧
    ∀ starts, planWeightLoad files bufferBytes = .ok starts →
      Placed 0 bufferBytes.toInt starts files ∧
      ∀ p ∈ starts.zip files, ∀ tensor ∈ p.2.tensors, ∀ filePath,
        checkWeightReadBound (p.1 + tensor.offset) tensor.byteSize bufferBytes filePath = .ok () := by
  have hrun : planWeightLoad files bufferBytes = (files.forM checkFile >>= fun _ =>
      planFrom bufferBytes (plannedWeightLoadBytes files) files.length 0 files) := by
    refine if_neg fun hle => ?_
    have := Int64.le_iff_toInt_le.mp hle
    rw [Int64.toInt_zero] at this
    omega
  by_cases hfiles : ∀ file ∈ files, checkFile file = .ok ()
  · have hvalid := fun file hfile => checkFile_ok.mp (hfiles file hfile)
    rw [hrun, Outcome.except_forM_ok.mpr hfiles]
    change (_ ↔ _) ∧ ∀ starts, planFrom _ _ _ _ _ = _ → _
    rcases @planFrom_cases bufferBytes (plannedWeightLoadBytes files) 0 files.length files hbuffer
      (fun file hfile => (hvalid file hfile).1) le_rfl (by decide)
      with ⟨starts, hplan, hends, hplaced⟩ | ⟨⟨e, hplan⟩, hover⟩
    · refine ⟨iff_of_false ?_ ?_, ?_⟩
      · rintro ⟨e, he⟩
        cases hplan.symm.trans he
      · rintro (⟨file, hfile, hneg⟩ | ⟨file, hfile, tensor, htensor, hout⟩ | ⟨finish, hfinish, hover⟩)
        · have := (hvalid file hfile).1
          omega
        · exact hout ((hvalid file hfile).2 tensor htensor)
        · have := hends finish hfinish
          omega
      · rintro starts' hstarts
        cases hplan.symm.trans hstarts
        refine ⟨hplaced, fun p hp tensor htensor filePath => if_neg ?_⟩
        obtain ⟨hoffset, hsize, hend⟩ := (hvalid p.2 (of_mem_zip hp).2).2 tensor htensor
        have hinside := hplaced.inside p hp
        rw [Int64.toInt_zero] at hinside
        simp only [gt_iff_lt, Int64.lt_iff_toInt_lt, Int64.toInt_zero]
        rw [toInt_sub_of_nonneg (by omega) hsize, toInt_add_of_lt (by omega) hoffset (by omega)]
        omega
    · refine ⟨iff_of_true ⟨e, hplan⟩ (Or.inr (Or.inr hover)), fun starts hstarts => ?_⟩
      cases hplan.symm.trans hstarts
  · have herror : ∃ e, planWeightLoad files bufferBytes = .error e := by
      cases hall : planWeightLoad files bufferBytes with
      | error e => exact ⟨e, rfl⟩
      | ok starts =>
        rw [hrun] at hall
        obtain ⟨_, hchecks, -⟩ := Outcome.except_bind_ok hall
        exact absurd (Outcome.except_forM_ok.mp hchecks) hfiles
    refine ⟨iff_of_true herror ?_, fun starts hstarts => ?_⟩
    · simp only [checkFile_ok, not_forall, not_and_or, not_le] at hfiles
      obtain ⟨file, hfile, hneg | ⟨tensor, htensor, hout⟩⟩ := hfiles
      · exact Or.inl ⟨file, hfile, hneg⟩
      · exact Or.inr (Or.inl ⟨file, hfile, tensor, htensor, hout⟩)
    · obtain ⟨e, he⟩ := herror
      cases he.symm.trans hstarts

/-- A file of 5000 bytes, padded to two pages, in front of one that ends with the buffer. -/
theorem planWeightLoad_exact_two :
    ∃ starts, planWeightLoad [⟨"a.json", "a.bin", 5000, [⟨"w", 8, 4992⟩]⟩, ⟨"b.json", "b.bin", 100, []⟩] 8292 =
        .ok starts ∧
      Placed 0 8292 starts [⟨"a.json", "a.bin", 5000, [⟨"w", 8, 4992⟩]⟩, ⟨"b.json", "b.bin", 100, []⟩] :=
  ⟨[0, 8192], rfl, ((planWeightLoad_exact _ 8292 (by decide) (by decide)).2 [0, 8192] rfl).1⟩

end Batchgen.WeightLoadPlan
