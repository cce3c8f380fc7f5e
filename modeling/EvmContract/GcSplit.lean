import EvmContract.GcSpec

/-!
# Splitting the `gc` budget

A call `gc(max)` that runs out of budget leaves its work where it stopped, and the next call
takes it up from there: the storage loop starts again at the first `gcstore` entry, on the rows of
its scope that are left, and the code loop at the first `gccode` entry, whose code row may already
be gone. This module shows that the work splits exactly: `gc(a)` followed by `gc(b)` leaves the
tables `gc(a + b)` leaves, whenever `a + b` fits in a `uint32` (`Db.gc_add`).

* `Resumable`: a budgeted loop run with `a + b` does what it does with `a`, then, if that spent all
  of `a`, what it does with `b` from where it stopped;
* `queueLoop_add`: a loop over a queue whose step resumes resumes; both loops of `gc` are such
  loops, over `eraseScope` and over `sweepCode`;
* `Db.gcRun_add`, `Db.gc_add`: the two calls and the one call leave the same tables and return
  the same result.
-/

namespace EvmContract

/-- The budgeted loop `f` resumes on the states `P` holds of: run with budget `a + b`, it does what
it does with `a`, then, if that spent all of `a`, what it does with `b` from there; otherwise it had
finished, and the rest of the budget is left. -/
def Resumable {σ : Type} (P : σ → Prop) (f : σ → UInt32 → σ × UInt32) : Prop :=
  ∀ s, P s → ∀ a b : UInt32, a.toNat + b.toNat < 2 ^ 32 →
    f s (a + b) = if (f s a).2 = 0 then f (f s a).1 b else ((f s a).1, (f s a).2 + b)

/-! ### Queue loops

Both loops of `gc` walk a queue: a budgeted step on the tables for the first entry, then the
entry is erased for one unit of budget; the loop stops when the budget reaches `0`. -/

section QueueLoop

variable {β σ : Type} {P : σ → Prop} {step : β → σ → UInt32 → σ × UInt32}
  {loop : List β → σ → UInt32 → List β × σ × UInt32}
  (hnil : ∀ s m, loop [] s m = ([], s, m))
  (hcons : ∀ e es s m, loop (e :: es) s m = if m = 0 then (e :: es, s, m) else
      if (step e s m).2 = 0 then (e :: es, (step e s m).1, (step e s m).2)
      else loop es (step e s m).1 ((step e s m).2 - 1))
  (hP : ∀ e s m, P s → P (step e s m).1) (hle : ∀ e s m, P s → (step e s m).2.toNat ≤ m.toNat)
  (hzero : ∀ e s, step e s 0 = (s, 0)) (hstep : ∀ e, Resumable P (step e))
include hnil hcons hP hle hzero hstep

/-- A queue loop resumes when its step does: the entry it stopped at is taken up again. -/
theorem queueLoop_add (q : List β) (s : σ) (hs : P s) {a b : UInt32}
    (hab : a.toNat + b.toNat < 2 ^ 32) :
    loop q s (a + b) = if (loop q s a).2.2 = 0 then loop (loop q s a).1 (loop q s a).2.1 b
      else ((loop q s a).1, (loop q s a).2.1, (loop q s a).2.2 + b) := by
  induction q generalizing s a with
  | nil =>
    simp only [hnil]
    split_ifs with ha
    · rw [ha, uint32_zero_add]
    · rfl
  | cons e es ih =>
    by_cases ha : a = 0
    · subst ha
      rw [uint32_zero_add, hcons e es s 0]
      simp
    have hab0 := uint32_add_ne_zero hab ha
    rw [hcons e es s (a + b), if_neg hab0, hstep e s hs a b hab, hcons e es s a, if_neg ha]
    by_cases hl : (step e s a).2 = 0
    · simp only [hl, if_true]
      rw [hcons]
      by_cases hb : b = 0
      · simp only [hb, hzero, if_true]
      · simp only [hb, if_false]
    · have hla := hle e s a hs
      have hlb := uint32_add_ne_zero (b := b) (by omega) hl
      have hab' : ((step e s a).2 - 1).toNat + b.toNat < 2 ^ 32 := by
        rw [uint32_toNat_sub_one hl]; omega
      simp only [hl, hlb, if_false]
      rw [uint32_add_sub_one (by omega) hl]
      exact ih _ (hP e s a hs) hab'

end QueueLoop

/-! ### The storage loop -/

theorem eraseScope_zero (sid : Nat) (l : List StorageRow) : eraseScope sid l 0 = (l, 0) := by
  cases l <;> rfl

/-- A row of another scope is passed over, whatever the budget. -/
theorem eraseScope_cons_of_ne {sid : Nat} {r : StorageRow} (hs : r.scope ≠ sid)
    (rs : List StorageRow) (m : UInt32) :
    eraseScope sid (r :: rs) m = (r :: (eraseScope sid rs m).1, (eraseScope sid rs m).2) := by
  by_cases h0 : m = 0
  · subst h0; rw [eraseScope_zero, eraseScope_zero]
  · simp only [eraseScope, h0, hs, if_false]

/-- Erasing a scope resumes at the first row of the scope that is left. -/
theorem eraseScope_add (sid : Nat) : Resumable (fun _ => True) (eraseScope sid) := by
  intro l _ a b hab
  induction l generalizing a with
  | nil =>
    show ([], a + b) = if a = 0 then ([], b) else ([], a + b)
    split_ifs with ha
    · rw [ha, uint32_zero_add]
    · rfl
  | cons r rs ih =>
    by_cases ha : a = 0
    · subst ha; rw [uint32_zero_add, eraseScope_zero]; simp
    by_cases hs : r.scope = sid
    · have hab0 := uint32_add_ne_zero hab ha
      have h1 : (a - 1).toNat + b.toNat < 2 ^ 32 := by rw [uint32_toNat_sub_one ha]; omega
      simp only [eraseScope, ha, hab0, hs, if_true, if_false]
      rw [uint32_add_sub_one hab ha]
      exact ih (a - 1) h1
    · simp only [eraseScope_cons_of_ne hs, ih a hab]
      split_ifs <;> rfl

theorem gcStoreLoop_add (q : List GcStoreRow) (rows : List StorageRow) {a b : UInt32}
    (hab : a.toNat + b.toNat < 2 ^ 32) :
    gcStoreLoop q rows (a + b) = if (gcStoreLoop q rows a).2.2 = 0 then
        gcStoreLoop (gcStoreLoop q rows a).1 (gcStoreLoop q rows a).2.1 b
      else ((gcStoreLoop q rows a).1, (gcStoreLoop q rows a).2.1, (gcStoreLoop q rows a).2.2 + b) :=
  @queueLoop_add GcStoreRow (List StorageRow) (fun _ => True)
    (fun e rows m => eraseScope e.storageId rows m) gcStoreLoop (fun _ _ => rfl)
    (fun _ _ _ _ => rfl) (fun _ _ _ _ => trivial) (fun _ _ _ _ => eraseScope_le _ _ _)
    (fun _ _ => eraseScope_zero _ _) (fun e => eraseScope_add e.storageId) q rows trivial a b hab

/-! ### The code loop -/

/-- Two code rows of a table with the same id are the same row. -/
theorem eq_of_codeId_eq {codes : List CodeRow} (hu : codes.Pairwise fun a b => a.id ≠ b.id)
    {c c' : CodeRow} (hc : c ∈ codes) (hc' : c' ∈ codes) (h : c.id = c'.id) : c = c' :=
  List.inj_on_of_nodup_map (List.pairwise_map.2 hu) hc hc' h

theorem sweepCode_zero (codes : List CodeRow) (codeId : Nat) :
    sweepCode codes codeId 0 = (codes, 0) := by
  unfold sweepCode; split
  · simp
  · rfl

/-- A sweep resumes: once it has erased the row, the row is gone and the next sweep passes. -/
theorem sweepCode_add (codeId : Nat) :
    Resumable (fun codes : List CodeRow => codes.Pairwise fun a b => a.id ≠ b.id)
      (fun codes m => sweepCode codes codeId m) := by
  intro codes hu a b hab
  dsimp only
  by_cases ha : a = 0
  · subst ha; rw [uint32_zero_add, sweepCode_zero]; simp
  have hab0 := uint32_add_ne_zero hab ha
  rcases sweepCode_cases hu codeId a with ⟨h, hne⟩ | ⟨c, hc, hid, hz, -, h⟩
  · rw [h, if_neg ha]
    rcases sweepCode_cases hu codeId (a + b) with ⟨h', -⟩ | ⟨c', hc', hid', hz', -, -⟩
    · exact h'
    · exact absurd hz' (hne ha c' hc' hid')
  · have hl : sweepCode codes codeId (a + b) = (codes.filter (· ≠ c), a + b - 1) := by
      rcases sweepCode_cases hu codeId (a + b) with ⟨-, hne⟩ | ⟨c', hc', hid', -, -, h'⟩
      · exact absurd hz (hne hab0 c hc hid)
      · rw [h', eq_of_codeId_eq hu hc' hc (hid'.trans hid.symm)]
    have hgone : sweepCode (codes.filter (· ≠ c)) codeId b = (codes.filter (· ≠ c), b) := by
      have hu' := hu.sublist (List.filter_sublist (p := fun x => decide (x ≠ c)) codes)
      rcases sweepCode_cases hu' codeId b with ⟨h', -⟩ | ⟨c', hc', hid', -, -, -⟩
      · exact h'
      · obtain ⟨hc', hne⟩ := List.mem_filter.1 hc'
        exact absurd (eq_of_codeId_eq hu hc' hc (hid'.trans hid.symm)) (of_decide_eq_true hne)
    rw [h, hl, uint32_add_sub_one hab ha]
    split_ifs with h1
    · rw [hgone, show a - 1 = 0 from h1, uint32_zero_add]
    · rfl

theorem gcCodeLoop_add (q : List GcCodeRow) {codes : List CodeRow}
    (hu : codes.Pairwise fun a b => a.id ≠ b.id) {a b : UInt32}
    (hab : a.toNat + b.toNat < 2 ^ 32) :
    gcCodeLoop q codes (a + b) = if (gcCodeLoop q codes a).2.2 = 0 then
        gcCodeLoop (gcCodeLoop q codes a).1 (gcCodeLoop q codes a).2.1 b
      else ((gcCodeLoop q codes a).1, (gcCodeLoop q codes a).2.1, (gcCodeLoop q codes a).2.2 + b) :=
  @queueLoop_add GcCodeRow (List CodeRow)
    (fun codes : List CodeRow => codes.Pairwise fun a b : CodeRow => a.id ≠ b.id)
    (fun j codes m => sweepCode codes j.codeId m) gcCodeLoop (fun _ _ => rfl)
    (fun _ _ _ _ => rfl) (fun _ _ _ hu => hu.sublist (sweepCode_sublist hu _ _))
    (fun _ _ _ hu => sweepCode_le hu _ _) (fun _ _ => sweepCode_zero _ _)
    (fun j => sweepCode_add j.codeId) q codes hu a b hab

/-! ### `gc` -/

namespace Db

variable (db : Db) {a b : UInt32}

/-- The loops of `gc(a + b)` leave the tables the loops of `gc(a)` and then of `gc(b)` leave:
if the storage loop spent all of `a`, the code loop did nothing and the second call takes the
storage queue up where it stopped; otherwise the storage queue was drained, and the same holds of
the code loop. -/
theorem gcRun_add (hab : a.toNat + b.toNat < 2 ^ 32) :
    ((db.gcRun a).1.gcRun b).1 = (db.gcRun (a + b)).1 := by
  have hs := gcStoreLoop_add db.gcStore.rows db.storage.rows hab
  have hu := codes_ids_distinct db.codes
  have hle := gcStoreLoop_le db.gcStore.rows db.storage.rows a
  set S := gcStoreLoop db.gcStore.rows db.storage.rows a with hS
  by_cases hl : S.2.2 = 0
  · rw [if_pos hl] at hs
    refine ext_rows rfl ?_ ?_ ?_ ?_ <;>
      simp only [gcRun_storage, gcRun_codes, gcRun_gcStore, gcRun_gcCode, ← hS, hs, hl,
        gcCodeLoop_zero]
  rw [if_neg hl] at hs
  have hq : S.1 = [] := gcStoreLoop_done _ _ _ hl
  have hc := gcCodeLoop_add db.gcCode.rows hu (a := S.2.2) (b := b) (by omega)
  set C := gcCodeLoop db.gcCode.rows db.codes.rows S.2.2 with hC
  by_cases hl' : C.2.2 = 0
  · rw [if_pos hl'] at hc
    refine ext_rows rfl ?_ ?_ ?_ ?_ <;>
      simp only [gcRun_storage, gcRun_codes, gcRun_gcStore, gcRun_gcCode, ← hS, ← hC, hs, hq, hc]
    all_goals rfl
  · rw [if_neg hl'] at hc
    have hq' : C.1 = [] := gcCodeLoop_done hu _ _ hl'
    refine ext_rows rfl ?_ ?_ ?_ ?_ <;>
      simp only [gcRun_storage, gcRun_codes, gcRun_gcStore, gcRun_gcCode, ← hS, ← hC, hs, hq, hc,
        hq']
    all_goals rfl

/-- **`gc`'s work splits across calls.** `gc(a)` followed by `gc(b)`, with nothing in between,
leaves the tables `gc(a + b)` leaves and returns what it returns, whenever `a + b` fits in a
`uint32`. -/
theorem gc_add (hab : a.toNat + b.toNat < 2 ^ 32) : (db.gc a).2.gc b = db.gc (a + b) := by
  rw [gc_snd]
  simp only [gc, gcRun_add db hab]

theorem gc_add_queued :
    let d := ((((Db.empty.updateAccount 1 none (some ⟨0, 0, 7, 0⟩)).updateAccountCode 1 7 [1]
      ).updateStorage 1 1 5).updateStorage 1 2 6).updateAccount 1 (some ⟨0, 0, 7, 0⟩) none
    (1 : UInt32).toNat + (2 : UInt32).toNat < 2 ^ 32 ∧ (d.gc 1).2.gc 2 = d.gc (1 + 2) :=
  ⟨by decide, gc_add _ (by decide)⟩

end Db

end EvmContract
