import EvmContract.Gc

/-!
# What `gc` guarantees

The collector's contract, assembled from the loop lemmas of `EvmContract.Gc`:

* `gc_respects_budget`: `gc(max)` erases at most `max` rows; its counter is only ever
  decremented against an erase (the rows erased equal the budget spent), it returns `true`
  exactly when both queues are empty, and `false` only after spending the whole budget;
* `gc_drains_queues`: with a budget of at least the pending work `pendingWork` it empties both
  queues, every queued scope and every queued code row whose count is `0`; with any positive
  budget on non-empty queues the pending work strictly drops, so repeated calls report success
  within `max (pendingWork db) 1` calls;
* `gc_touches_only_queued`: the accounts table is unchanged, nothing is inserted or modified,
  only queued scopes lose rows, only queued code rows with count `0` are erased, a `gcstore`
  entry goes only once its scope is empty, and each queue loses a prefix in id order.
-/

namespace EvmContract

namespace Db

/-- The rows `gc` may erase: storage rows, `gcstore` entries, code rows and `gccode` entries. -/
def rowCount (db : Db) : Nat :=
  db.storage.rows.length + db.gcStore.rows.length + db.codes.rows.length + db.gcCode.rows.length

/-- The pending work: per `gcstore` entry one unit plus the rows of its scope, per `gccode` entry
one unit plus one more if it names a code row whose count is `0`. -/
def pendingWork (db : Db) : Nat :=
  storePotential db.gcStore.rows db.storage.rows + codePotential db.gcCode.rows db.codes.rows

/-- The results of successive `gc` calls with the given budgets and nothing in between. -/
def gcCalls : Db → List UInt32 → List Bool
  | _, [] => []
  | db, b :: bs => (db.gc b).1 :: gcCalls (db.gc b).2 bs

section GcRun

variable (db : Db) (max : UInt32)

@[simp] theorem gcRun_accounts : (db.gcRun max).1.accounts = db.accounts := rfl
@[simp] theorem gcRun_storage :
    (db.gcRun max).1.storage.rows = (gcStoreLoop db.gcStore.rows db.storage.rows max).2.1 := rfl
@[simp] theorem gcRun_gcStore :
    (db.gcRun max).1.gcStore.rows = (gcStoreLoop db.gcStore.rows db.storage.rows max).1 := rfl
@[simp] theorem gcRun_codes :
    (db.gcRun max).1.codes.rows =
      (gcCodeLoop db.gcCode.rows db.codes.rows
        (gcStoreLoop db.gcStore.rows db.storage.rows max).2.2).2.1 := rfl
@[simp] theorem gcRun_gcCode :
    (db.gcRun max).1.gcCode.rows = (gcCodeLoop db.gcCode.rows db.codes.rows
      (gcStoreLoop db.gcStore.rows db.storage.rows max).2.2).1 := rfl
@[simp] theorem gcRun_left :
    (db.gcRun max).2 = (gcCodeLoop db.gcCode.rows db.codes.rows
      (gcStoreLoop db.gcStore.rows db.storage.rows max).2.2).2.2 := rfl
@[simp] theorem gc_snd : (db.gc max).2 = (db.gcRun max).1 := rfl

theorem gc_fst : (db.gc max).1 =
    ((db.gcRun max).1.gcStore.rows.isEmpty && (db.gcRun max).1.gcCode.rows.isEmpty) := rfl

/-- `gc` reports success exactly when it leaves both queues empty. -/
theorem gc_fst_iff :
    (db.gc max).1 = true ↔ (db.gc max).2.gcStore.rows = [] ∧ (db.gc max).2.gcCode.rows = [] := by
  simp [gc_fst]

theorem gcRun_le : (db.gcRun max).2.toNat ≤ max.toNat := by
  have := gcStoreLoop_le db.gcStore.rows db.storage.rows max
  have := gcCodeLoop_le (codes_ids_distinct db.codes) db.gcCode.rows
    (gcStoreLoop db.gcStore.rows db.storage.rows max).2.2
  simp only [gcRun_left]
  omega

/-- Rows erased equal the budget spent. -/
theorem gcRun_rowCount :
    db.rowCount = (db.gcRun max).1.rowCount + (max.toNat - (db.gcRun max).2.toNat) := by
  have := gcStoreLoop_length db.gcStore.rows db.storage.rows max
  have := gcStoreLoop_le db.gcStore.rows db.storage.rows max
  have := gcCodeLoop_length (codes_ids_distinct db.codes) db.gcCode.rows
    (gcStoreLoop db.gcStore.rows db.storage.rows max).2.2
  have := gcCodeLoop_le (codes_ids_distinct db.codes) db.gcCode.rows
    (gcStoreLoop db.gcStore.rows db.storage.rows max).2.2
  simp only [rowCount, gcRun_storage, gcRun_gcStore, gcRun_codes, gcRun_gcCode, gcRun_left]
  omega

/-- Budget left means both queues are drained. -/
theorem gcRun_done (h : (db.gcRun max).2 ≠ 0) :
    (db.gcRun max).1.gcStore.rows = [] ∧ (db.gcRun max).1.gcCode.rows = [] := by
  have hle := gcCodeLoop_le (codes_ids_distinct db.codes) db.gcCode.rows
    (gcStoreLoop db.gcStore.rows db.storage.rows max).2.2
  rw [gcRun_left] at h
  refine ⟨gcStoreLoop_done _ _ _ ?_, gcCodeLoop_done (codes_ids_distinct db.codes) _ _ h⟩
  rw [uint32_ne_zero_iff] at h ⊢
  omega

/-- The pending work drops by at least the budget spent. -/
theorem gcRun_potential :
    (db.gcRun max).1.pendingWork + (max.toNat - (db.gcRun max).2.toNat) ≤ db.pendingWork := by
  have hs := gcStoreLoop_potential db.gcStore.rows db.storage.rows max
  have hc := gcCodeLoop_potential (codes_ids_distinct db.codes) db.gcCode.rows
    (gcStoreLoop db.gcStore.rows db.storage.rows max).2.2
  have := gcStoreLoop_le db.gcStore.rows db.storage.rows max
  have := gcCodeLoop_le (codes_ids_distinct db.codes) db.gcCode.rows
    (gcStoreLoop db.gcStore.rows db.storage.rows max).2.2
  simp only [pendingWork, gcRun_storage, gcRun_gcStore, gcRun_codes, gcRun_gcCode, gcRun_left]
  omega

theorem length_le_pendingWork (db : Db) :
    db.gcStore.rows.length + db.gcCode.rows.length ≤ db.pendingWork := by
  have : db.gcStore.rows.length ≤ storePotential db.gcStore.rows db.storage.rows := by
    simp only [storePotential]
    induction db.gcStore.rows with
    | nil => exact le_rfl
    | cons e es ih => simp only [List.length_cons, List.map_cons, List.sum_cons]; omega
  simp only [pendingWork, codePotential]
  omega

/-- Both queues are empty after the call, whether or not budget is left. -/
theorem gcRun_drained_of_le (h : db.pendingWork ≤ max.toNat) :
    (db.gcRun max).1.gcStore.rows = [] ∧ (db.gcRun max).1.gcCode.rows = [] := by
  by_cases h0 : (db.gcRun max).2 = 0
  · have hp := gcRun_potential db max
    have hl := length_le_pendingWork (db.gcRun max).1
    rw [h0, UInt32.toNat_zero] at hp
    exact ⟨List.length_eq_zero.1 (by omega), List.length_eq_zero.1 (by omega)⟩
  · exact gcRun_done db max h0

end GcRun

/-- **`gc` respects its step budget.** It erases at most `max` rows; the rows it erases are
exactly the budget it spends, so the counter goes down only against an erase and never below
zero; it returns `true` exactly when both queues are empty; and when it returns `false` it has
erased `max` rows. -/
theorem gc_respects_budget (db : Db) (max : UInt32) :
    db.rowCount ≤ (db.gc max).2.rowCount + max.toNat ∧
    db.rowCount = (db.gcRun max).1.rowCount + (max.toNat - (db.gcRun max).2.toNat) ∧
    (db.gcRun max).2.toNat ≤ max.toNat ∧
    ((db.gc max).1 = true ↔ (db.gc max).2.gcStore.rows = [] ∧ (db.gc max).2.gcCode.rows = []) ∧
    ((db.gc max).1 = false → db.rowCount = (db.gc max).2.rowCount + max.toNat) := by
  have hc := gcRun_rowCount db max
  have hl := gcRun_le db max
  refine ⟨by rw [gc_snd]; omega, hc, hl, gc_fst_iff db max, fun hf => ?_⟩
  have h0 : (db.gcRun max).2 = 0 := by
    by_contra h
    rw [gc_fst, (gcRun_done db max h).1, (gcRun_done db max h).2] at hf
    exact absurd hf (by decide)
  rw [h0, UInt32.toNat_zero, Nat.sub_zero] at hc
  rwa [gc_snd]

/-! ### Draining the queues -/

theorem gc_of_drained {db : Db} (max : UInt32) (hs : db.gcStore.rows = [])
    (hc : db.gcCode.rows = []) : (db.gc max).1 = true := by
  rw [gc_fst, gcRun_gcStore, gcRun_gcCode, hs, hc]
  rfl

/-- With a budget of at least the pending work, `gc` empties both queues, every queued scope and
every queued code row whose count is `0`. -/
theorem gc_drains_of_le (db : Db) (max : UInt32) (h : db.pendingWork ≤ max.toNat) :
    (db.gc max).1 = true ∧ (db.gc max).2.gcStore.rows = [] ∧ (db.gc max).2.gcCode.rows = [] ∧
    (∀ e ∈ db.gcStore.rows, ∀ r ∈ (db.gc max).2.storage.rows, r.scope ≠ e.storageId) ∧
    (∀ e ∈ db.gcCode.rows, ∀ c ∈ db.codes.rows, c.id = e.codeId → c.refCount = 0 →
      c ∉ (db.gc max).2.codes.rows) := by
  obtain ⟨hs, hc⟩ := gcRun_drained_of_le db max h
  refine ⟨by rw [gc_fst, hs, hc]; rfl, hs, hc, fun e he => ?_, fun e he c _ hid hz hmem => ?_⟩
  · exact gcStoreLoop_cleared _ _ _ he (by rw [← gcRun_gcStore, hs]; exact List.not_mem_nil _)
  · have hg := gcCodeLoop_cleared (codes_ids_distinct db.codes) _ _ he
      (by rw [← gcRun_gcCode, hc]; exact List.not_mem_nil _)
    rw [namesGarbage, List.any_eq_false] at hg
    exact hg c hmem (by simp [hid, hz])

/-- A call with a positive budget on non-empty queues strictly lowers the pending work. -/
theorem gc_pendingWork_lt (db : Db) {max : UInt32} (hm : max ≠ 0)
    (hq : db.gcStore.rows ≠ [] ∨ db.gcCode.rows ≠ []) :
    (db.gc max).2.pendingWork < db.pendingWork := by
  have hp := gcRun_potential db max
  rw [gc_snd]
  by_cases hl : (db.gcRun max).2 = max
  · exfalso
    have hc := gcRun_rowCount db max
    obtain ⟨hs, hcd⟩ := gcRun_done db max (by rw [hl]; exact hm)
    have h1 := (gcStoreLoop_sublist db.gcStore.rows db.storage.rows max).length_le
    have h2 := (gcCodeLoop_sublist (codes_ids_distinct db.codes) db.gcCode.rows
      (gcStoreLoop db.gcStore.rows db.storage.rows max).2.2).length_le
    rw [hl, Nat.sub_self, Nat.add_zero, rowCount, rowCount, hs, hcd] at hc
    simp only [gcRun_storage, gcRun_codes, List.length_nil] at hc
    rcases hq with hq | hq <;> have := List.length_pos.2 hq <;> omega
  · have := lt_of_le_of_ne (gcRun_le db max) (mt uint32_eq_iff.2 hl)
    omega

/-- A `gc` that returns `false` had queued work, and leaves some. -/
theorem gc_false_pending {db : Db} {max : UInt32} (hr : (db.gc max).1 = false) :
    (db.gcStore.rows ≠ [] ∨ db.gcCode.rows ≠ []) ∧ 1 ≤ (db.gc max).2.pendingWork := by
  have hiff := gc_fst_iff db max
  have hlen := length_le_pendingWork (db.gc max).2
  refine ⟨?_, ?_⟩
  · by_contra hq
    rw [not_or, not_not, not_not] at hq
    rw [gc_of_drained max hq.1 hq.2] at hr
    exact Bool.noConfusion hr
  · by_contra h0
    rw [hr] at hiff
    exact Bool.noConfusion
      (hiff.2 ⟨List.length_eq_zero.1 (by omega), List.length_eq_zero.1 (by omega)⟩)

/-- Successive calls with positive budgets report success within `max (pendingWork db) 1`
calls. -/
theorem gcCalls_succeeds (db : Db) (budgets : List UInt32) (hb : ∀ b ∈ budgets, b ≠ 0)
    (hl : max db.pendingWork 1 ≤ budgets.length) :
    true ∈ (gcCalls db budgets).take (max db.pendingWork 1) := by
  induction budgets generalizing db with
  | nil => simp at hl
  | cons b bs ih =>
    rw [gcCalls, show max db.pendingWork 1 = (max db.pendingWork 1 - 1) + 1 by omega,
      List.take_succ_cons]
    cases hr : (db.gc b).1
    · obtain ⟨hq, hq'⟩ := gc_false_pending hr
      have hlt := gc_pendingWork_lt db (hb b (List.mem_cons_self _ _)) hq
      have := ih (db.gc b).2 (fun b' h => hb b' (List.mem_cons_of_mem _ h))
        (by simp only [List.length_cons] at hl; omega)
      exact List.mem_cons_of_mem _ (List.take_subset_take_left _ (by omega) this)
    · exact List.mem_cons_self _ _

/-- **`gc` drains its queues and terminates.** (a) With `max` at least the pending work, `gc`
returns `true` with both queues empty, every scope a `gcstore` entry named without rows, and
every code row a `gccode` entry named with count `0` erased. (b) A call with a positive budget
on non-empty queues strictly lowers the pending work, so (c) calls with positive budgets and
nothing in between return `true` within `max (pendingWork db) 1` calls. -/
theorem gc_drains_queues (db : Db) :
    (∀ max : UInt32, db.pendingWork ≤ max.toNat →
      (db.gc max).1 = true ∧ (db.gc max).2.gcStore.rows = [] ∧ (db.gc max).2.gcCode.rows = [] ∧
      (∀ e ∈ db.gcStore.rows, ∀ r ∈ (db.gc max).2.storage.rows, r.scope ≠ e.storageId) ∧
      (∀ e ∈ db.gcCode.rows, ∀ c ∈ db.codes.rows, c.id = e.codeId → c.refCount = 0 →
        c ∉ (db.gc max).2.codes.rows)) ∧
    (∀ max : UInt32, max ≠ 0 → (db.gcStore.rows ≠ [] ∨ db.gcCode.rows ≠ []) →
      (db.gc max).2.pendingWork < db.pendingWork) ∧
    (∀ budgets : List UInt32, (∀ b ∈ budgets, b ≠ 0) → max db.pendingWork 1 ≤ budgets.length →
      true ∈ (gcCalls db budgets).take (max db.pendingWork 1)) :=
  ⟨gc_drains_of_le db, fun _ hm hq => gc_pendingWork_lt db hm hq, gcCalls_succeeds db⟩

/-! ### The frame of `gc` -/

section Frame

variable (db : Db) (max : UInt32)

theorem gc_storage_sublist : (db.gc max).2.storage.rows.Sublist db.storage.rows :=
  gcStoreLoop_sublist _ _ _

theorem gc_codes_sublist : (db.gc max).2.codes.rows.Sublist db.codes.rows :=
  gcCodeLoop_sublist (codes_ids_distinct _) _ _

theorem gc_gcStore_suffix : (db.gc max).2.gcStore.rows <:+ db.gcStore.rows :=
  gcStoreLoop_suffix _ _ _

theorem gc_gcCode_suffix : (db.gc max).2.gcCode.rows <:+ db.gcCode.rows :=
  gcCodeLoop_suffix (codes_ids_distinct _) _ _

variable {db max}

/-- A storage row is erased only from a queued scope. -/
theorem gc_storage_erased {r : StorageRow} (hr : r ∈ db.storage.rows)
    (hr' : r ∉ (db.gc max).2.storage.rows) : ∃ e ∈ db.gcStore.rows, e.storageId = r.scope :=
  gcStoreLoop_erased _ _ _ hr hr'

/-- A code row is erased only when its count is `0` and it is queued. -/
theorem gc_codes_erased {c : CodeRow} (hc : c ∈ db.codes.rows)
    (hc' : c ∉ (db.gc max).2.codes.rows) :
    c.refCount = 0 ∧ ∃ e ∈ db.gcCode.rows, e.codeId = c.id :=
  gcCodeLoop_erased (codes_ids_distinct _) _ _ hc hc'

/-- A `gcstore` entry goes only once its scope is empty. -/
theorem gc_gcStore_cleared {e : GcStoreRow} (he : e ∈ db.gcStore.rows)
    (he' : e ∉ (db.gc max).2.gcStore.rows) :
    ∀ r ∈ (db.gc max).2.storage.rows, r.scope ≠ e.storageId :=
  gcStoreLoop_cleared _ _ _ he he'

/-- A `gccode` entry goes only once no row it names has count `0`. -/
theorem gc_gcCode_cleared {e : GcCodeRow} (he : e ∈ db.gcCode.rows)
    (he' : e ∉ (db.gc max).2.gcCode.rows) :
    ∀ c ∈ (db.gc max).2.codes.rows, c.id = e.codeId → c.refCount ≠ 0 := by
  have hg := gcCodeLoop_cleared (codes_ids_distinct db.codes) _ _ he he'
  rw [namesGarbage, List.any_eq_false] at hg
  exact fun c hc hid hz => hg c hc (by simp [hid, hz])

end Frame

/-- **`gc` touches only queued garbage.** The accounts table is unchanged; storage and code rows
are only erased (what is left is a sublist), storage rows only from scopes a `gcstore` entry
names, code rows only when their count is `0` and a `gccode` entry names them; a `gcstore` entry
is erased only once its scope has no rows left; and each queue loses a prefix, whose ids come
before those of every entry left. -/
theorem gc_touches_only_queued (db : Db) (max : UInt32) :
    (db.gc max).2.accounts = db.accounts ∧
    (db.gc max).2.storage.rows.Sublist db.storage.rows ∧
    (db.gc max).2.codes.rows.Sublist db.codes.rows ∧
    (∀ r ∈ db.storage.rows, r ∉ (db.gc max).2.storage.rows →
      ∃ e ∈ db.gcStore.rows, e.storageId = r.scope) ∧
    (∀ c ∈ db.codes.rows, c ∉ (db.gc max).2.codes.rows →
      c.refCount = 0 ∧ ∃ e ∈ db.gcCode.rows, e.codeId = c.id) ∧
    (∀ e ∈ db.gcStore.rows, e ∉ (db.gc max).2.gcStore.rows →
      ∀ r ∈ (db.gc max).2.storage.rows, r.scope ≠ e.storageId) ∧
    (∃ pre, db.gcStore.rows = pre ++ (db.gc max).2.gcStore.rows ∧
      ∀ e ∈ pre, ∀ e' ∈ (db.gc max).2.gcStore.rows, e.id < e'.id) ∧
    (∃ pre, db.gcCode.rows = pre ++ (db.gc max).2.gcCode.rows ∧
      ∀ e ∈ pre, ∀ e' ∈ (db.gc max).2.gcCode.rows, e.id < e'.id) := by
  obtain ⟨ps, hps⟩ := gc_gcStore_suffix db max
  obtain ⟨pc, hpc⟩ := gc_gcCode_suffix db max
  exact ⟨rfl, gc_storage_sublist db max, gc_codes_sublist db max,
    fun _ hr hr' => gc_storage_erased hr hr', fun _ hc hc' => gc_codes_erased hc hc',
    fun _ he he' => gc_gcStore_cleared he he',
    ⟨ps, hps.symm, fun e he e' he' => Table.lt_of_append hps he he' rfl⟩,
    ⟨pc, hpc.symm, fun e he e' he' => Table.lt_of_append hpc he he' rfl⟩⟩

/-! ### Idempotence -/

/-- On drained queues `gc` changes nothing. -/
theorem gc_snd_of_drained {db : Db} (max : UInt32) (hs : db.gcStore.rows = [])
    (hc : db.gcCode.rows = []) : (db.gc max).2 = db := by
  refine ext_rows rfl ?_ ?_ ?_ ?_ <;>
    simp only [gc_snd, gcRun_storage, gcRun_codes, gcRun_gcStore, gcRun_gcCode, hs, hc] <;> rfl

/-- A budget of zero changes nothing. -/
theorem gc_snd_zero (db : Db) : (db.gc 0).2 = db := by
  refine ext_rows rfl ?_ ?_ ?_ ?_ <;>
    simp only [gc_snd, gcRun_storage, gcRun_codes, gcRun_gcStore, gcRun_gcCode, gcStoreLoop_zero,
      gcCodeLoop_zero]

/-- **`gc` is idempotent.** With a budget of at least the pending work `gc` drains both queues,
and every later `gc`, whatever its budget, returns true and changes nothing; `gc(0)` changes
nothing and reports whether both queues are drained. -/
theorem gc_idempotent (db : Db) :
    (∀ max : UInt32, db.pendingWork ≤ max.toNat →
      ∀ max' : UInt32, (db.gc max).2.gc max' = (true, (db.gc max).2)) ∧
    db.gc 0 = (db.gcStore.rows.isEmpty && db.gcCode.rows.isEmpty, db) := by
  refine ⟨fun max h max' => ?_, ?_⟩
  · obtain ⟨-, hs, hc, -⟩ := gc_drains_of_le db max h
    exact Prod.ext (gc_of_drained max' hs hc) (gc_snd_of_drained max' hs hc)
  · refine Prod.ext ?_ (gc_snd_zero db)
    rw [gc_fst, ← gc_snd, gc_snd_zero]

end Db

end EvmContract
