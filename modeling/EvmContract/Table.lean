import EvmContract.Basic
import Mathlib.Data.List.Nodup
import Mathlib.Data.List.Pairwise

/-!
# The table substrate

The contract keeps its state in the ledger's indexed tables (`eosio::multi_index`). A table's rows
sit in primary-key order within each scope, and `state.cpp` uses four operations on them:

* `emplace`, which adds the row its initializer builds from `available_primary_key()`;
* `modify`, which rewrites one row in place, keeping its scope and primary key;
* `erase`, which removes one row;
* `find` through the primary key or a secondary index, which returns the first matching row in
  primary-key order (`List.find?` on `rows`).

`available_primary_key()` is computed as on the fresh handle each call of `state.cpp` opens: one
more than the largest primary key in the scope, `0` when the scope is empty. Primary keys are
`Nat`; the substrate's abort once a scope has used up the `uint64` keys is not modelled.
-/

namespace EvmContract

/-- The scope and the primary key of a table's row. -/
class TableRow (α : Type) where
  scope : α → Nat
  primaryKey : α → Nat

open TableRow

/-- A table: its rows, in primary-key order within each scope. -/
structure Table (α : Type) [TableRow α] where
  rows : List α
  ordered : rows.Pairwise fun a b => scope a = scope b → primaryKey a < primaryKey b

namespace Table

variable {α : Type} [TableRow α]

/-! ### Primary keys -/

/-- One more than the largest primary key in scope `sc` among `l`, `0` if there is none. -/
def nextKey (sc : Nat) : List α → Nat
  | [] => 0
  | r :: rs => if scope r = sc then max (primaryKey r + 1) (nextKey sc rs) else nextKey sc rs

@[simp] theorem nextKey_nil (sc : Nat) : nextKey sc ([] : List α) = 0 := rfl

theorem nextKey_cons (sc : Nat) (r : α) (rs : List α) :
    nextKey sc (r :: rs) =
      if scope r = sc then max (primaryKey r + 1) (nextKey sc rs) else nextKey sc rs := rfl

theorem primaryKey_lt_nextKey {sc : Nat} {l : List α} {r : α} (hr : r ∈ l) (hs : scope r = sc) :
    primaryKey r < nextKey sc l := by
  induction l with
  | nil => cases hr
  | cons x xs ih =>
    rw [nextKey_cons]
    rcases List.mem_cons.1 hr with rfl | hr
    · simp only [hs, if_true]; omega
    · have := ih hr; split <;> omega

theorem nextKey_append_of_scope {sc : Nat} (l : List α) {r : α} (hs : scope r = sc) :
    nextKey sc (l ++ [r]) = max (nextKey sc l) (primaryKey r + 1) := by
  induction l with
  | nil => simp [nextKey_cons, hs]
  | cons x xs ih => rw [List.cons_append, nextKey_cons, nextKey_cons, ih]; split <;> omega

theorem nextKey_filter_scope (sc : Nat) (l : List α) :
    nextKey sc (l.filter (scope · = sc)) = nextKey sc l := by
  induction l with
  | nil => rfl
  | cons r rs ih => by_cases hr : scope r = sc <;> simp [List.filter_cons, nextKey_cons, hr, ih]

/-- The next key of a scope reads only the rows of that scope. -/
theorem nextKey_of_filter {sc : Nat} {l l' : List α}
    (h : l'.filter (scope · = sc) = l.filter (scope · = sc)) : nextKey sc l' = nextKey sc l := by
  rw [← nextKey_filter_scope sc l', h, nextKey_filter_scope]

/-- `available_primary_key()` in scope `sc`. -/
def availablePrimaryKey (t : Table α) (sc : Nat) : Nat := nextKey sc t.rows

theorem primaryKey_lt_available {t : Table α} {r : α} (hr : r ∈ t.rows) :
    primaryKey r < t.availablePrimaryKey (scope r) :=
  primaryKey_lt_nextKey hr rfl

/-- Two rows of a table with the same scope and primary key are the same row. -/
theorem eq_of_key_eq {t : Table α} {a b : α} (ha : a ∈ t.rows) (hb : b ∈ t.rows)
    (hs : scope a = scope b) (hk : primaryKey a = primaryKey b) : a = b := by
  by_contra hne
  have hp : t.rows.Pairwise fun a b => scope a = scope b → primaryKey a ≠ primaryKey b :=
    t.ordered.imp fun h hs => (h hs).ne
  have symm : Symmetric fun a b : α => scope a = scope b → primaryKey a ≠ primaryKey b :=
    fun _ _ h hs => (h hs.symm).symm
  exact List.Pairwise.forall symm hp ha hb hne hs hk

/-- Rows before a split of the table come first in primary-key order within their scope. -/
theorem lt_of_append {t : Table α} {pre rest : List α} (h : pre ++ rest = t.rows) {a b : α}
    (ha : a ∈ pre) (hb : b ∈ rest) (hs : scope a = scope b) : primaryKey a < primaryKey b := by
  have := t.ordered
  rw [← h, List.pairwise_append] at this
  exact this.2.2 a ha b hb hs

theorem nodup (t : Table α) : t.rows.Nodup :=
  t.ordered.imp fun h heq => by subst heq; exact (h rfl).ne rfl

omit [TableRow α] in
theorem find?_congr {p q : α → Bool} {l : List α} (h : ∀ x ∈ l, p x = q x) :
    l.find? p = l.find? q := by
  induction l with
  | nil => rfl
  | cons x xs ih =>
    simp only [List.find?_cons, h x (List.mem_cons_self _ _),
      ih fun y hy => h y (List.mem_cons_of_mem _ hy)]

omit [TableRow α] in
/-- On a duplicate-free list, a sublist that keeps every match keeps the first match. -/
theorem find?_sublist_eq {p : α → Bool} {l l' : List α} (hl : l.Nodup) (h : l'.Sublist l)
    (hp : ∀ x ∈ l, p x → x ∈ l') : l'.find? p = l.find? p := by
  induction h with
  | slnil => rfl
  | cons a h ih =>
    rw [List.nodup_cons] at hl
    have hpa : ¬ p a := fun hpa => hl.1 (h.subset (hp a (List.mem_cons_self _ _) hpa))
    rw [List.find?_cons_of_neg _ hpa, ih hl.2 fun x hx => hp x (List.mem_cons_of_mem _ hx)]
  | cons₂ a h ih =>
    rw [List.nodup_cons] at hl
    by_cases hpa : p a
    · rw [List.find?_cons_of_pos _ hpa, List.find?_cons_of_pos _ hpa]
    · rw [List.find?_cons_of_neg _ hpa, List.find?_cons_of_neg _ hpa, ih hl.2 fun x hx hpx => ?_]
      rcases List.mem_cons.1 (hp x (List.mem_cons_of_mem _ hx) hpx) with rfl | h'
      exacts [absurd hx hl.1, h']

omit [TableRow α] in
/-- On a duplicate-free list, a sublist that keeps the first match keeps it first. -/
theorem find?_sublist_of_mem {p : α → Bool} {l l' : List α} (hl : l.Nodup) (h : l'.Sublist l)
    {x : α} (hx : l.find? p = some x) (hx' : x ∈ l') : l'.find? p = some x := by
  induction h with
  | slnil => exact absurd hx' (List.not_mem_nil _)
  | cons a h ih =>
    rw [List.nodup_cons] at hl
    by_cases hpa : p a
    · rw [List.find?_cons_of_pos _ hpa, Option.some.injEq] at hx
      exact absurd (h.subset (hx ▸ hx')) hl.1
    · rw [List.find?_cons_of_neg _ hpa] at hx
      exact ih hl.2 hx hx'
  | cons₂ a h ih =>
    rw [List.nodup_cons] at hl
    by_cases hpa : p a
    · rwa [List.find?_cons_of_pos _ hpa] at hx ⊢
    · rw [List.find?_cons_of_neg _ hpa] at hx ⊢
      have hxa : x ≠ a := fun e => hpa (e ▸ List.find?_some hx)
      exact ih hl.2 hx ((List.mem_cons.1 hx').resolve_left hxa)

omit [TableRow α] in
/-- Rewriting one entry of a duplicate-free list trades its contribution to a count for that of
its rewrite. -/
theorem countP_map_ite [DecidableEq α] (p : α → Bool) {l : List α} {r : α} (f : α → α)
    (hn : l.Nodup) (hr : r ∈ l) :
    (l.map fun x => if x = r then f x else x).countP p + (if p r then 1 else 0) =
      l.countP p + (if p (f r) then 1 else 0) := by
  induction l with
  | nil => cases hr
  | cons x xs ih =>
    rw [List.nodup_cons] at hn
    rcases List.mem_cons.1 hr with rfl | hr
    · have hid : (xs.map fun y => if y = r then f y else y) = xs :=
        (List.map_congr_left fun y hy => if_neg fun e : y = r => hn.1 (e ▸ hy)).trans
          (List.map_id _)
      simp only [List.map_cons, if_pos rfl, hid, List.countP_cons, if_true]
      omega
    · have hx : x ≠ r := fun e => hn.1 (e ▸ hr)
      have := ih hn.2 hr
      simp only [List.map_cons, if_neg hx, List.countP_cons]
      omega

omit [TableRow α] in
/-- Erasing one entry of a duplicate-free list removes its contribution to a count. -/
theorem countP_filter_ne [DecidableEq α] (p : α → Bool) {l : List α} {r : α} (hn : l.Nodup)
    (hr : r ∈ l) : (l.filter (· ≠ r)).countP p + (if p r then 1 else 0) = l.countP p := by
  induction l with
  | nil => cases hr
  | cons x xs ih =>
    rw [List.nodup_cons] at hn
    rcases List.mem_cons.1 hr with rfl | hr
    · rw [List.filter_cons_of_neg (by simp),
        List.filter_eq_self.2 fun y hy => by simpa using fun h : y = r => hn.1 (h ▸ hy),
        List.countP_cons]
    · have hx : x ≠ r := fun e => hn.1 (e ▸ hr)
      have := ih hn.2 hr
      rw [List.filter_cons_of_pos (by simpa using hx), List.countP_cons, List.countP_cons]
      omega

omit [TableRow α] in
/-- Erasing a row of a duplicate-free list removes exactly one entry. -/
theorem length_filter_ne [DecidableEq α] {l : List α} {c : α} (hn : l.Nodup) (hc : c ∈ l) :
    (l.filter (· ≠ c)).length + 1 = l.length := by
  induction l with
  | nil => cases hc
  | cons x xs ih =>
    rw [List.nodup_cons] at hn
    rcases List.mem_cons.1 hc with rfl | hc
    · rw [List.filter_cons_of_neg (by simp),
        List.filter_eq_self.2 fun y hy => by simpa using fun h : y = c => hn.1 (h ▸ hy)]
      rfl
    · have hx : x ≠ c := fun h => hn.1 (h ▸ hc)
      rw [List.filter_cons_of_pos (by simpa using hx), List.length_cons, ih hn.2 hc]
      rfl

/-! ### Operations -/

/-- The empty table. -/
def empty : Table α := ⟨[], List.Pairwise.nil⟩

theorem ordered_append_fresh (t : Table α) {r : α}
    (hr : primaryKey r = t.availablePrimaryKey (scope r)) :
    (t.rows ++ [r]).Pairwise fun a b => scope a = scope b → primaryKey a < primaryKey b := by
  refine List.pairwise_append.2 ⟨t.ordered, List.pairwise_singleton _ _, ?_⟩
  intro a ha b hb hs
  rw [List.mem_singleton.1 hb] at hs ⊢
  rw [hr, ← hs]
  exact primaryKey_lt_available ha

/-- `emplace`: add to scope `sc` the row `mk` builds from `available_primary_key()`. -/
def emplace (t : Table α) (sc : Nat) (mk : Nat → α)
    (hmk : ∀ n, scope (mk n) = sc ∧ primaryKey (mk n) = n) : Table α :=
  ⟨t.rows ++ [mk (t.availablePrimaryKey sc)],
    t.ordered_append_fresh (by rw [(hmk _).1, (hmk _).2])⟩

/-- The table whose rows are the sublist `l` of `t`'s: what is left after erasing rows. -/
def ofSublist (t : Table α) (l : List α) (h : l.Sublist t.rows) : Table α :=
  ⟨l, t.ordered.sublist h⟩

/-- Tables are their rows. -/
theorem ext_rows {t t' : Table α} (h : t.rows = t'.rows) : t = t' := by
  cases t; cases t'; cases h; rfl

@[simp] theorem rows_empty : (empty : Table α).rows = [] := rfl

@[simp] theorem rows_emplace (t : Table α) (sc : Nat) (mk : Nat → α) (hmk) :
    (t.emplace sc mk hmk).rows = t.rows ++ [mk (t.availablePrimaryKey sc)] := rfl

@[simp] theorem rows_ofSublist (t : Table α) (l : List α) (h) : (t.ofSublist l h).rows = l := rfl

@[simp] theorem mem_emplace {t : Table α} {sc : Nat} {mk : Nat → α} {hmk} {x : α} :
    x ∈ (t.emplace sc mk hmk).rows ↔ x ∈ t.rows ∨ x = mk (t.availablePrimaryKey sc) := by
  simp

/-- A column stays duplicate-free under `emplace` when the new row's entry is fresh. -/
theorem nodup_map_emplace {β : Type} (k : α → β) {t : Table α} {sc : Nat} {mk : Nat → α} {hmk}
    (h : (t.rows.map k).Nodup) (hk : ∀ x ∈ t.rows, k x ≠ k (mk (t.availablePrimaryKey sc))) :
    ((t.emplace sc mk hmk).rows.map k).Nodup := by
  rw [rows_emplace, List.map_append, List.map_singleton, ← List.concat_eq_append]
  exact h.concat (by simpa using hk)

variable [DecidableEq α]

/-- `modify`: rewrite the row `r` by `f`, which keeps every row's scope and primary key. -/
def modify (t : Table α) (r : α) (f : α → α)
    (hf : ∀ x, scope (f x) = scope x ∧ primaryKey (f x) = primaryKey x) : Table α :=
  ⟨t.rows.map fun x => if x = r then f x else x,
    have key : ∀ x, scope (if x = r then f x else x) = scope x ∧
        primaryKey (if x = r then f x else x) = primaryKey x := fun x => by
      split_ifs <;> simp only [hf, and_self]
    List.pairwise_map.2 <| t.ordered.imp fun h => by simpa only [(key _).1, (key _).2] using h⟩

/-- `erase`: remove the row `r`. -/
def erase (t : Table α) (r : α) : Table α :=
  ⟨t.rows.filter (· ≠ r), t.ordered.sublist (List.filter_sublist _)⟩

@[simp] theorem rows_modify (t : Table α) (r : α) (f : α → α) (hf) :
    (t.modify r f hf).rows = t.rows.map fun x => if x = r then f x else x := rfl

@[simp] theorem rows_erase (t : Table α) (r : α) : (t.erase r).rows = t.rows.filter (· ≠ r) := rfl

/-- A rewrite that fixes the row it rewrites leaves the table. -/
theorem modify_of_fixed {t : Table α} {r : α} {f : α → α} {hf} (h : f r = r) :
    t.modify r f hf = t :=
  ext_rows ((List.map_congr_left fun x _ => by split <;> simp_all).trans (List.map_id _))

/-- `modify` keeps every column its rewrite keeps. -/
theorem map_modify {β : Type} (k : α → β) {t : Table α} {r : α} {f : α → α} {hf}
    (hk : ∀ x, k (f x) = k x) : (t.modify r f hf).rows.map k = t.rows.map k := by
  rw [rows_modify, List.map_map]
  exact List.map_congr_left fun x _ => by dsimp only [Function.comp]; split <;> simp [hk]

/-- A row `modify` rewrites is in the table, so the map changes exactly that row. -/
theorem mem_modify {t : Table α} {r : α} {f : α → α} {hf} {x : α} :
    x ∈ (t.modify r f hf).rows ↔ (r ∈ t.rows ∧ x = f r) ∨ (x ∈ t.rows ∧ x ≠ r) := by
  simp only [rows_modify, List.mem_map]
  constructor
  · rintro ⟨y, hy, rfl⟩
    by_cases h : y = r
    · subst h; simp [hy]
    · simp [h, hy]
  · rintro (⟨hr, rfl⟩ | ⟨hx, hne⟩)
    · exact ⟨r, hr, by simp⟩
    · exact ⟨x, hx, by simp [hne]⟩

end Table

end EvmContract
