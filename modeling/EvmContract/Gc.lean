import EvmContract.Update

/-!
# The garbage collector: `state::gc`

`gc(max)` drains the two deletion queues under one `uint32` budget `max`; every erase takes one
unit of it:

* the `gcstore` loop: for each entry in id order, erase the rows of its storage scope one by one
  (`eraseScope`); once the scope is empty, erase the entry;
* the `gccode` loop: for each entry in id order, erase the code row it names if that row's count
  is `0` (`sweepCode`); then erase the entry;
* either loop stops when the budget reaches `0`; `gc` returns whether both queues are empty.

The loops work on the rows of the tables (`eraseScope` walks the one list that holds the rows
of every storage scope and skips the other scopes); `Db.gcRun` puts the remaining rows back into
the tables and also returns the budget left. Each loop comes with the facts the theorems about
`gc` are assembled from: what it keeps (`…_sublist`, `…_suffix`), how many rows it erases
against the budget it spends (`…_length`), that budget left means its queue is empty
(`…_done`), and a potential that drops by at least the budget spent (`…_potential`).
-/

namespace EvmContract

/-! ### The storage loop -/

/-- The inner `while` of the `gcstore` loop over the scope `sid`: `sitr = db.erase(sitr); --max;`
while budget and rows of the scope remain. -/
def eraseScope (sid : Nat) : List StorageRow → UInt32 → List StorageRow × UInt32
  | [], max => ([], max)
  | r :: rs, max =>
    if max = 0 then (r :: rs, max)
    else if r.scope = sid then eraseScope sid rs (max - 1)
    else
      let p := eraseScope sid rs max
      (r :: p.1, p.2)

/-- The rows of scope `sid`. -/
def scopeCount (sid : Nat) (rows : List StorageRow) : Nat := rows.countP (·.scope = sid)

section EraseScope

variable (sid : Nat)

theorem eraseScope_sublist (l : List StorageRow) (m : UInt32) :
    (eraseScope sid l m).1.Sublist l := by
  induction l generalizing m with
  | nil => exact List.Sublist.refl _
  | cons r rs ih =>
    simp only [eraseScope]
    split_ifs
    · exact List.Sublist.refl _
    · exact (ih _).cons r
    · exact (ih _).cons₂ r

theorem eraseScope_le (l : List StorageRow) (m : UInt32) :
    (eraseScope sid l m).2.toNat ≤ m.toNat := by
  induction l generalizing m with
  | nil => exact le_rfl
  | cons r rs ih =>
    simp only [eraseScope]
    split_ifs with h0
    · exact le_rfl
    · have := ih (m - 1); rw [uint32_toNat_sub_one h0] at this; omega
    · exact ih m

/-- The rows of scope `sid` drop by exactly the budget spent. -/
theorem eraseScope_count (l : List StorageRow) (m : UInt32) :
    scopeCount sid (eraseScope sid l m).1 + (m.toNat - (eraseScope sid l m).2.toNat) =
      scopeCount sid l := by
  induction l generalizing m with
  | nil => simp [eraseScope, scopeCount]
  | cons r rs ih =>
    simp only [eraseScope]
    split_ifs with h0 hs
    · simp
    · have h1 := ih (m - 1)
      have h2 := eraseScope_le sid rs (m - 1)
      have h3 := uint32_ne_zero_iff.1 h0
      rw [uint32_toNat_sub_one h0] at h1 h2
      simp only [scopeCount, List.countP_cons, hs, decide_True, if_true] at h1 ⊢
      omega
    · have := ih m
      simp only [scopeCount, List.countP_cons, hs, decide_False] at this ⊢
      simpa using this

/-- The loop stops with budget left only once the scope is empty. -/
theorem eraseScope_done (l : List StorageRow) (m : UInt32) (h : (eraseScope sid l m).2 ≠ 0) :
    ∀ r ∈ (eraseScope sid l m).1, r.scope ≠ sid := by
  induction l generalizing m with
  | nil => simp [eraseScope]
  | cons r rs ih =>
    simp only [eraseScope] at h ⊢
    split_ifs at h ⊢ with h0 hs
    · exact absurd h0 h
    · exact ih _ h
    · rintro x (_ | ⟨_, hx⟩)
      · exact hs
      · exact ih _ h x hx

/-- Every row erased is paid for: the rows drop by exactly the budget spent. -/
theorem eraseScope_length (l : List StorageRow) (m : UInt32) :
    (eraseScope sid l m).1.length + (m.toNat - (eraseScope sid l m).2.toNat) = l.length := by
  induction l generalizing m with
  | nil => simp [eraseScope]
  | cons r rs ih =>
    simp only [eraseScope]
    split_ifs with h0 hs
    · simp
    · have h1 := ih (m - 1)
      have h2 := eraseScope_le sid rs (m - 1)
      have h3 := uint32_ne_zero_iff.1 h0
      rw [uint32_toNat_sub_one h0] at h1 h2
      simp only [List.length_cons]
      omega
    · have := ih m; simp only [List.length_cons]; omega

/-- Rows of other scopes stay. -/
theorem eraseScope_mem_of_ne {l : List StorageRow} {r : StorageRow} (hr : r ∈ l)
    (hs : r.scope ≠ sid) (m : UInt32) : r ∈ (eraseScope sid l m).1 := by
  induction l generalizing m with
  | nil => cases hr
  | cons x xs ih =>
    simp only [eraseScope]
    rcases List.mem_cons.1 hr with rfl | hr
    · split_ifs <;> simp_all
    · split_ifs
      · exact List.mem_cons_of_mem _ hr
      · exact ih hr _
      · exact List.mem_cons_of_mem _ (ih hr _)

end EraseScope

/-- The `gcstore` loop: for each entry, empty its scope, then erase the entry; stop when the
budget is spent. -/
def gcStoreLoop :
    List GcStoreRow → List StorageRow → UInt32 → List GcStoreRow × List StorageRow × UInt32
  | [], rows, max => ([], rows, max)
  | e :: es, rows, max =>
    if max = 0 then (e :: es, rows, max)
    else
      let p := eraseScope e.storageId rows max
      if p.2 = 0 then (e :: es, p.1, p.2)
      else gcStoreLoop es p.1 (p.2 - 1)

theorem gcStoreLoop_zero (q : List GcStoreRow) (rows : List StorageRow) :
    gcStoreLoop q rows 0 = (q, rows, 0) := by
  cases q <;> rfl

/-- The storage side of the pending work: one unit per entry and one per row of its scope. -/
def storePotential (q : List GcStoreRow) (rows : List StorageRow) : Nat :=
  (q.map fun e => 1 + scopeCount e.storageId rows).sum

theorem storePotential_mono (q : List GcStoreRow) {rows rows' : List StorageRow}
    (h : rows'.Sublist rows) : storePotential q rows' ≤ storePotential q rows := by
  induction q with
  | nil => exact le_rfl
  | cons e es ih =>
    simp only [storePotential, List.map_cons, List.sum_cons] at ih ⊢
    have : scopeCount e.storageId rows' ≤ scopeCount e.storageId rows := h.countP_le _
    omega

section StoreLoop

variable (q : List GcStoreRow) (rows : List StorageRow) (m : UInt32)

theorem gcStoreLoop_suffix : (gcStoreLoop q rows m).1 <:+ q := by
  induction q generalizing rows m with
  | nil => exact List.suffix_refl _
  | cons e es ih =>
    simp only [gcStoreLoop]
    split_ifs
    · exact List.suffix_refl _
    · exact List.suffix_refl _
    · exact (ih _ _).trans (List.suffix_cons e es)

theorem gcStoreLoop_sublist : (gcStoreLoop q rows m).2.1.Sublist rows := by
  induction q generalizing rows m with
  | nil => exact List.Sublist.refl _
  | cons e es ih =>
    simp only [gcStoreLoop]
    split_ifs
    · exact List.Sublist.refl _
    · exact eraseScope_sublist _ _ _
    · exact (ih _ _).trans (eraseScope_sublist _ _ _)

theorem gcStoreLoop_le : (gcStoreLoop q rows m).2.2.toNat ≤ m.toNat := by
  induction q generalizing rows m with
  | nil => exact le_rfl
  | cons e es ih =>
    simp only [gcStoreLoop]
    split_ifs with h0 h1
    · exact le_rfl
    · exact eraseScope_le _ _ _
    · have := ih (eraseScope e.storageId rows m).1 ((eraseScope e.storageId rows m).2 - 1)
      have := eraseScope_le e.storageId rows m
      rw [uint32_toNat_sub_one h1] at *
      omega

/-- Rows and entries erased together equal the budget spent. -/
theorem gcStoreLoop_length :
    (gcStoreLoop q rows m).2.1.length + (gcStoreLoop q rows m).1.length +
      (m.toNat - (gcStoreLoop q rows m).2.2.toNat) = rows.length + q.length := by
  induction q generalizing rows m with
  | nil => simp [gcStoreLoop]
  | cons e es ih =>
    simp only [gcStoreLoop]
    have he := eraseScope_length e.storageId rows m
    have hle := eraseScope_le e.storageId rows m
    split_ifs with h0 h1
    · simp
    · rw [h1] at he ⊢; simp only [UInt32.toNat_zero] at he ⊢; omega
    · have := ih (eraseScope e.storageId rows m).1 ((eraseScope e.storageId rows m).2 - 1)
      have := gcStoreLoop_le es (eraseScope e.storageId rows m).1
        ((eraseScope e.storageId rows m).2 - 1)
      have := uint32_ne_zero_iff.1 h1
      rw [uint32_toNat_sub_one h1] at *
      simp only [List.length_cons]
      omega

/-- Budget left means the queue is drained. -/
theorem gcStoreLoop_done (h : (gcStoreLoop q rows m).2.2 ≠ 0) : (gcStoreLoop q rows m).1 = [] := by
  induction q generalizing rows m with
  | nil => rfl
  | cons e es ih =>
    simp only [gcStoreLoop] at h ⊢
    split_ifs at h ⊢ with h0 h1
    · exact absurd h0 h
    · exact absurd h1 h
    · exact ih _ _ h

/-- A row is erased only from a scope some entry names. -/
theorem gcStoreLoop_erased {r : StorageRow} (hr : r ∈ rows) (hr' : r ∉ (gcStoreLoop q rows m).2.1) :
    ∃ e ∈ q, e.storageId = r.scope := by
  induction q generalizing rows m with
  | nil => exact absurd hr hr'
  | cons e es ih =>
    simp only [gcStoreLoop] at hr'
    by_cases hs : r.scope = e.storageId
    · exact ⟨e, List.mem_cons_self _ _, hs.symm⟩
    have keep := eraseScope_mem_of_ne e.storageId hr hs m
    split_ifs at hr' with h0 h1
    · exact absurd hr hr'
    · exact absurd keep hr'
    · obtain ⟨e', he', h⟩ := ih _ _ keep hr'
      exact ⟨e', List.mem_cons_of_mem _ he', h⟩

/-- An entry is erased only once its scope holds no rows. -/
theorem gcStoreLoop_cleared {e : GcStoreRow} (he : e ∈ q) (he' : e ∉ (gcStoreLoop q rows m).1) :
    ∀ r ∈ (gcStoreLoop q rows m).2.1, r.scope ≠ e.storageId := by
  induction q generalizing rows m with
  | nil => cases he
  | cons e₀ es ih =>
    simp only [gcStoreLoop] at he' ⊢
    split_ifs at he' ⊢ with h0 h1
    · exact absurd he he'
    · exact absurd he he'
    · by_cases hes : e ∈ es
      · exact ih _ _ hes he'
      · obtain rfl : e = e₀ := by simpa [hes] using he
        intro r hr
        exact eraseScope_done _ _ _ h1 r ((gcStoreLoop_sublist _ _ _).subset hr)

/-- The pending storage work drops by at least the budget spent. -/
theorem gcStoreLoop_potential :
    storePotential (gcStoreLoop q rows m).1 (gcStoreLoop q rows m).2.1 +
      (m.toNat - (gcStoreLoop q rows m).2.2.toNat) ≤ storePotential q rows := by
  induction q generalizing rows m with
  | nil => simp [gcStoreLoop]
  | cons e es ih =>
    simp only [gcStoreLoop]
    have hc := eraseScope_count e.storageId rows m
    have hmono := storePotential_mono es (eraseScope_sublist e.storageId rows m)
    simp only [storePotential, List.map_cons, List.sum_cons] at hmono ⊢
    split_ifs with h0 h1
    · simp
    · rw [h1] at hc ⊢
      simp only [storePotential, List.map_cons, List.sum_cons, UInt32.toNat_zero] at hc ⊢
      omega
    · have hi := ih (eraseScope e.storageId rows m).1 ((eraseScope e.storageId rows m).2 - 1)
      have hle := gcStoreLoop_le es (eraseScope e.storageId rows m).1
        ((eraseScope e.storageId rows m).2 - 1)
      have h2 := uint32_ne_zero_iff.1 h1
      have hz : scopeCount e.storageId (eraseScope e.storageId rows m).1 = 0 :=
        List.countP_eq_zero.2 fun r hr => by simpa using eraseScope_done _ _ _ h1 r hr
      rw [uint32_toNat_sub_one h1] at hi hle
      simp only [storePotential] at hi
      omega

end StoreLoop

/-! ### The code loop -/

/-- One iteration's sweep in the `gccode` loop: `codes.find(j->code_id)`, erased, for one unit of
budget, when budget is left and its count is `0`. -/
def sweepCode (codes : List CodeRow) (codeId : Nat) (max : UInt32) : List CodeRow × UInt32 :=
  match codes.find? (·.id = codeId) with
  | some c => if max ≠ 0 ∧ c.refCount = 0 then (codes.filter (· ≠ c), max - 1) else (codes, max)
  | none => (codes, max)

/-- The `gccode` loop: for each entry, sweep the code row it names, then erase the entry; stop
when the budget is spent. -/
def gcCodeLoop : List GcCodeRow → List CodeRow → UInt32 → List GcCodeRow × List CodeRow × UInt32
  | [], codes, max => ([], codes, max)
  | j :: js, codes, max =>
    if max = 0 then (j :: js, codes, max)
    else
      let p := sweepCode codes j.codeId max
      if p.2 = 0 then (j :: js, p.1, p.2)
      else gcCodeLoop js p.1 (p.2 - 1)

theorem gcCodeLoop_zero (q : List GcCodeRow) (codes : List CodeRow) :
    gcCodeLoop q codes 0 = (q, codes, 0) := by
  cases q <;> rfl

/-- Some code row with id `codeId` has count `0`. -/
def namesGarbage (codes : List CodeRow) (codeId : Nat) : Bool :=
  codes.any fun c => c.id = codeId ∧ c.refCount = 0

/-- The code side of the pending work: one unit per entry, one more per entry naming a row whose
count is `0`. -/
def codePotential (q : List GcCodeRow) (codes : List CodeRow) : Nat :=
  q.length + q.countP fun j => namesGarbage codes j.codeId

theorem namesGarbage_mono {codes codes' : List CodeRow} (h : codes'.Sublist codes) (codeId : Nat)
    (hg : namesGarbage codes' codeId = true) : namesGarbage codes codeId = true := by
  simp only [namesGarbage, List.any_eq_true] at hg ⊢
  obtain ⟨c, hc, hp⟩ := hg
  exact ⟨c, h.subset hc, hp⟩

theorem codePotential_mono (q : List GcCodeRow) {codes codes' : List CodeRow}
    (h : codes'.Sublist codes) : codePotential q codes' ≤ codePotential q codes :=
  Nat.add_le_add_left (List.countP_mono_left fun j _ => namesGarbage_mono h j.codeId) _

theorem codePotential_cons_of_clear {codes : List CodeRow} (j : GcCodeRow) (js : List GcCodeRow)
    (h : namesGarbage codes j.codeId = false) :
    codePotential (j :: js) codes = codePotential js codes + 1 := by
  simp only [codePotential, List.length_cons, List.countP_cons, h, Bool.false_eq_true, if_false]
  omega

section CodeLoop

variable {codes : List CodeRow} (hu : codes.Pairwise fun a b => a.id ≠ b.id)
include hu

/-- What one sweep does: nothing, and then no row with the id has count `0` if budget was
left; or it erases the row with the id, whose count is `0`, for one unit of budget. -/
theorem sweepCode_cases (codeId : Nat) (m : UInt32) :
    (sweepCode codes codeId m = (codes, m) ∧
      (m ≠ 0 → ∀ c ∈ codes, c.id = codeId → c.refCount ≠ 0)) ∨
    ∃ c ∈ codes, c.id = codeId ∧ c.refCount = 0 ∧ m ≠ 0 ∧
      sweepCode codes codeId m = (codes.filter (· ≠ c), m - 1) := by
  unfold sweepCode
  cases h : codes.find? (·.id = codeId) with
  | none =>
    exact .inl ⟨rfl, fun _ c hc hid => absurd (by simpa using hid) (List.find?_eq_none.1 h c hc)⟩
  | some c =>
    have hc := List.mem_of_find?_eq_some h
    have hid : c.id = codeId := by simpa using List.find?_some h
    by_cases hz : m ≠ 0 ∧ c.refCount = 0
    · exact .inr ⟨c, hc, hid, hz.2, hz.1, if_pos hz⟩
    · refine .inl ⟨by simp only [hz, if_false], fun hm c' hc' hid' => ?_⟩
      have symm : Symmetric fun a b : CodeRow => a.id ≠ b.id := fun _ _ h => h.symm
      obtain rfl : c' = c := by
        by_contra hne; exact List.Pairwise.forall symm hu hc' hc hne (hid'.trans hid.symm)
      exact fun h0 => hz ⟨hm, h0⟩

theorem sweepCode_sublist (codeId : Nat) (m : UInt32) :
    (sweepCode codes codeId m).1.Sublist codes := by
  rcases sweepCode_cases hu codeId m with ⟨h, -⟩ | ⟨c, -, -, -, -, h⟩ <;>
    simp [h, List.filter_sublist]

theorem sweepCode_le (codeId : Nat) (m : UInt32) :
    (sweepCode codes codeId m).2.toNat ≤ m.toNat := by
  rcases sweepCode_cases hu codeId m with ⟨h, -⟩ | ⟨c, -, -, -, hm, h⟩
  · simp only [h, le_refl]
  · simp only [h, uint32_toNat_sub_one hm, Nat.sub_le]

theorem sweepCode_length (codeId : Nat) (m : UInt32) :
    (sweepCode codes codeId m).1.length + (m.toNat - (sweepCode codes codeId m).2.toNat) =
      codes.length := by
  rcases sweepCode_cases hu codeId m with ⟨h, -⟩ | ⟨c, hc, -, -, hm, h⟩ <;> simp only [h]
  · simp
  · have := Table.length_filter_ne (hu.imp fun h e => h (congrArg CodeRow.id e)) hc
    have := uint32_ne_zero_iff.1 hm
    rw [uint32_toNat_sub_one hm]
    omega

theorem sweepCode_erased (codeId : Nat) (m : UInt32) {c : CodeRow} (hc : c ∈ codes)
    (hc' : c ∉ (sweepCode codes codeId m).1) : c.refCount = 0 ∧ c.id = codeId := by
  rcases sweepCode_cases hu codeId m with ⟨h, -⟩ | ⟨c₀, -, hid, hz, -, h⟩ <;> simp only [h] at hc'
  · exact absurd hc hc'
  · obtain rfl : c = c₀ := by simpa [hc] using hc'
    exact ⟨hz, hid⟩

/-- With budget left, a sweep leaves no row with the id whose count is `0`. -/
theorem sweepCode_clears (codeId : Nat) {m : UInt32} (hm : m ≠ 0) :
    namesGarbage (sweepCode codes codeId m).1 codeId = false := by
  rw [namesGarbage, List.any_eq_false]
  intro c hc hp
  obtain ⟨hid, hz⟩ := of_decide_eq_true hp
  rcases sweepCode_cases hu codeId m with ⟨h, hne⟩ | ⟨c₀, hc₀, hid₀, -, -, h⟩ <;>
    simp only [h] at hc
  · exact hne hm c hc hid hz
  · have symm : Symmetric fun a b : CodeRow => a.id ≠ b.id := fun _ _ h => h.symm
    obtain ⟨hc, hne⟩ := List.mem_filter.1 hc
    exact List.Pairwise.forall symm hu hc hc₀ (of_decide_eq_true hne) (hid.trans hid₀.symm)

/-- A sweep spends budget only on a row with the id whose count is `0`. -/
theorem sweepCode_spent (codeId : Nat) (m : UInt32) :
    m.toNat - (sweepCode codes codeId m).2.toNat ≤
      if namesGarbage codes codeId then 1 else 0 := by
  rcases sweepCode_cases hu codeId m with ⟨h, -⟩ | ⟨c, hc, hid, hz, hm, h⟩ <;> simp only [h]
  · simp
  · have : namesGarbage codes codeId = true :=
      List.any_eq_true.2 ⟨c, hc, by simp [hid, hz]⟩
    rw [this, if_pos rfl, uint32_toNat_sub_one hm]
    omega

/-- One sweep lowers the pending code work by at least the budget it spends. -/
theorem sweepCode_potential (j : GcCodeRow) (js : List GcCodeRow) {m : UInt32} (hm : m ≠ 0) :
    codePotential (j :: js) (sweepCode codes j.codeId m).1 +
      (m.toNat - (sweepCode codes j.codeId m).2.toNat) ≤ codePotential (j :: js) codes := by
  have hs := sweepCode_spent hu j.codeId m
  have hmono := codePotential_mono js (sweepCode_sublist hu j.codeId m)
  simp only [codePotential, List.length_cons, List.countP_cons, sweepCode_clears hu j.codeId hm,
    Bool.false_eq_true, if_false] at hmono ⊢
  by_cases hg : namesGarbage codes j.codeId = true <;> simp only [hg, if_true, if_false] at hs ⊢ <;>
    omega

variable (q : List GcCodeRow) (m : UInt32)

theorem gcCodeLoop_suffix : (gcCodeLoop q codes m).1 <:+ q := by
  induction q generalizing codes m with
  | nil => exact List.suffix_refl _
  | cons j js ih =>
    simp only [gcCodeLoop]
    split_ifs
    · exact List.suffix_refl _
    · exact List.suffix_refl _
    · exact (ih (hu.sublist (sweepCode_sublist hu _ _)) _).trans (List.suffix_cons j js)

theorem gcCodeLoop_sublist : (gcCodeLoop q codes m).2.1.Sublist codes := by
  induction q generalizing codes m with
  | nil => exact List.Sublist.refl _
  | cons j js ih =>
    simp only [gcCodeLoop]
    split_ifs
    · exact List.Sublist.refl _
    · exact sweepCode_sublist hu _ _
    · exact (ih (hu.sublist (sweepCode_sublist hu _ _)) _).trans (sweepCode_sublist hu _ _)

theorem gcCodeLoop_le : (gcCodeLoop q codes m).2.2.toNat ≤ m.toNat := by
  induction q generalizing codes m with
  | nil => exact le_rfl
  | cons j js ih =>
    simp only [gcCodeLoop]
    split_ifs with h0 h1
    · exact le_rfl
    · exact sweepCode_le hu _ _
    · have := ih (hu.sublist (sweepCode_sublist hu j.codeId m)) ((sweepCode codes j.codeId m).2 - 1)
      have := sweepCode_le hu j.codeId m
      rw [uint32_toNat_sub_one h1] at *
      omega

/-- Code rows and entries erased together equal the budget spent. -/
theorem gcCodeLoop_length :
    (gcCodeLoop q codes m).2.1.length + (gcCodeLoop q codes m).1.length +
      (m.toNat - (gcCodeLoop q codes m).2.2.toNat) = codes.length + q.length := by
  induction q generalizing codes m with
  | nil => simp [gcCodeLoop]
  | cons j js ih =>
    simp only [gcCodeLoop]
    have he := sweepCode_length hu j.codeId m
    split_ifs with h0 h1
    · simp
    · rw [h1] at he ⊢; simp only [UInt32.toNat_zero] at he ⊢; omega
    · have hu' := hu.sublist (sweepCode_sublist hu j.codeId m)
      have := ih hu' ((sweepCode codes j.codeId m).2 - 1)
      have := gcCodeLoop_le hu' js ((sweepCode codes j.codeId m).2 - 1)
      have := sweepCode_le hu j.codeId m
      have := uint32_ne_zero_iff.1 h1
      rw [uint32_toNat_sub_one h1] at *
      simp only [List.length_cons]
      omega

/-- Budget left means the queue is drained. -/
theorem gcCodeLoop_done (h : (gcCodeLoop q codes m).2.2 ≠ 0) : (gcCodeLoop q codes m).1 = [] := by
  induction q generalizing codes m with
  | nil => rfl
  | cons j js ih =>
    simp only [gcCodeLoop] at h ⊢
    split_ifs at h ⊢ with h0 h1
    · exact absurd h0 h
    · exact absurd h1 h
    · exact ih (hu.sublist (sweepCode_sublist hu _ _)) _ h

/-- A code row is erased only when its count is `0` and an entry names it. -/
theorem gcCodeLoop_erased {c : CodeRow} (hc : c ∈ codes) (hc' : c ∉ (gcCodeLoop q codes m).2.1) :
    c.refCount = 0 ∧ ∃ j ∈ q, j.codeId = c.id := by
  induction q generalizing codes m with
  | nil => exact absurd hc hc'
  | cons j js ih =>
    simp only [gcCodeLoop] at hc'
    by_cases hs : c ∈ (sweepCode codes j.codeId m).1
    · split_ifs at hc' with h0 h1
      · exact absurd hc hc'
      · exact absurd hs hc'
      · obtain ⟨hz, j', hj', h⟩ := ih (hu.sublist (sweepCode_sublist hu _ _)) _ hs hc'
        exact ⟨hz, j', List.mem_cons_of_mem _ hj', h⟩
    · obtain ⟨hz, hid⟩ := sweepCode_erased hu j.codeId m hc hs
      exact ⟨hz, j, List.mem_cons_self _ _, hid.symm⟩

/-- An entry is erased only once no row it names has count `0`. -/
theorem gcCodeLoop_cleared {j : GcCodeRow} (hj : j ∈ q) (hj' : j ∉ (gcCodeLoop q codes m).1) :
    namesGarbage (gcCodeLoop q codes m).2.1 j.codeId = false := by
  induction q generalizing codes m with
  | nil => cases hj
  | cons j₀ js ih =>
    simp only [gcCodeLoop] at hj' ⊢
    split_ifs at hj' ⊢ with h0 h1
    · exact absurd hj hj'
    · exact absurd hj hj'
    · have hu' := hu.sublist (sweepCode_sublist hu j₀.codeId m)
      by_cases hjs : j ∈ js
      · exact ih hu' _ hjs hj'
      · obtain rfl : j = j₀ := by simpa [hjs] using hj
        exact Bool.eq_false_iff.2 fun hg => Bool.eq_false_iff.1 (sweepCode_clears hu j.codeId h0)
          (namesGarbage_mono (gcCodeLoop_sublist hu' js _) _ hg)

/-- The pending code work drops by at least the budget spent. -/
theorem gcCodeLoop_potential :
    codePotential (gcCodeLoop q codes m).1 (gcCodeLoop q codes m).2.1 +
      (m.toNat - (gcCodeLoop q codes m).2.2.toNat) ≤ codePotential q codes := by
  induction q generalizing codes m with
  | nil => simp [gcCodeLoop]
  | cons j js ih =>
    simp only [gcCodeLoop]
    have hs := fun h0 => sweepCode_potential hu j js (m := m) h0
    split_ifs with h0 h1
    · simp
    · exact hs h0
    · have hu' := hu.sublist (sweepCode_sublist hu j.codeId m)
      have hi := ih hu' ((sweepCode codes j.codeId m).2 - 1)
      have hle := gcCodeLoop_le hu' js ((sweepCode codes j.codeId m).2 - 1)
      have hc := codePotential_cons_of_clear j js (sweepCode_clears hu j.codeId h0)
      have := hs h0
      have := uint32_ne_zero_iff.1 h1
      rw [uint32_toNat_sub_one h1] at hi hle
      omega

end CodeLoop

/-! ### `gc` -/

theorem codes_ids_distinct (t : Table CodeRow) : t.rows.Pairwise fun a b => a.id ≠ b.id :=
  t.ordered.imp fun h => (h rfl).ne

namespace Db

/-- The two loops of `gc` on the tables, with the budget left at the end. -/
def gcRun (db : Db) (max : UInt32) : Db × UInt32 :=
  let s := gcStoreLoop db.gcStore.rows db.storage.rows max
  let c := gcCodeLoop db.gcCode.rows db.codes.rows s.2.2
  ({ db with
      gcStore := db.gcStore.ofSublist s.1 (gcStoreLoop_suffix _ _ _).sublist
      storage := db.storage.ofSublist s.2.1 (gcStoreLoop_sublist _ _ _)
      gcCode := db.gcCode.ofSublist c.1 (gcCodeLoop_suffix (codes_ids_distinct _) _ _).sublist
      codes := db.codes.ofSublist c.2.1 (gcCodeLoop_sublist (codes_ids_distinct _) _ _) },
    c.2.2)

/-- `state::gc`: run both loops, then report whether both queues are empty. -/
def gc (db : Db) (max : UInt32) : Bool × Db :=
  let r := db.gcRun max
  (r.1.gcStore.rows.isEmpty && r.1.gcCode.rows.isEmpty, r.1)

end Db

end EvmContract
