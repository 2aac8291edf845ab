import Mathlib.Data.List.Nodup
import NameResolution.Proofs.Automaton.WorkList

namespace NameResolution

universe u
variable {α : Type u} [DecidableEq α]

omit [DecidableEq α] in
theorem filterMap_range'_getElem? (known fresh : List α) :
    (List.range' known.length fresh.length).filterMap ((known ++ fresh)[·]?) = fresh := by
  induction fresh generalizing known with
  | nil => rfl
  | cons x fresh ih =>
    have hrest := ih (known ++ [x])
    rw [List.length_append, List.length_singleton, List.append_assoc] at hrest
    rw [List.length_cons, List.range'_succ, List.filterMap_cons_some (b := x) (by simp)]
    exact congrArg (x :: ·) hrest

theorem unseen_congr {known known' : List α} (h : ∀ x, x ∈ known ↔ x ∈ known') (xs : List α) :
    unseen known xs = unseen known' xs := by
  induction xs generalizing known known' with
  | nil => rfl
  | cons x xs ih =>
    have hcons : ∀ y, y ∈ x :: known ↔ y ∈ x :: known' := by simp [h]
    simp only [unseen, h x, ih h, ih hcons]

/-- What is new in a list is found one element after another. -/
theorem unseen_cons (known : List α) (x : α) (xs : List α) :
    unseen known (x :: xs) = unseen known [x] ++ unseen (known ++ unseen known [x]) xs := by
  by_cases hx : x ∈ known
  · simp [unseen, hx]
  · have hsame : ∀ y, y ∈ x :: known ↔ y ∈ known ++ [x] := by simp [or_comm]
    simp [unseen, hx, unseen_congr hsame]

theorem nodup_append_unseen {known : List α} (h : known.Nodup) (xs : List α) :
    (known ++ unseen known xs).Nodup :=
  List.nodup_append.mpr ⟨h, nodup_unseen _ _, fun _ hy _ hz e => (mem_unseen.mp hz).2 (e ▸ hy)⟩

theorem subset_append_unseen (known xs : List α) : xs ⊆ known ++ unseen known xs := by
  intro x hx
  by_cases hk : x ∈ known
  · exact List.mem_append_left _ hk
  · exact List.mem_append_right _ (mem_unseen.mpr ⟨hx, hk⟩)

/-- The nodes met so far, in the order of their numbers; for each the numbers of its successors, if
it has been visited, and of the visited nodes that it is a successor of; and the numbers of the nodes
still to be visited. -/
structure Numbering (α : Type u) where
  nodes : List α
  rows : List (List ℕ)
  sources : List (List ℕ)
  work : List ℕ

namespace Numbering

variable {next : α → List α} {g : Numbering α} {i j k : ℕ}

def single (start : α) : Numbering α := ⟨[start], [[]], [[]], [0]⟩

/-- New nodes get the next numbers and are visited first, the last of them before the others. -/
def extend (g : Numbering α) (fresh : List α) : Numbering α where
  nodes := g.nodes ++ fresh
  rows := g.rows ++ fresh.map fun _ => []
  sources := g.sources ++ fresh.map fun _ => []
  work := (List.range' g.nodes.length fresh.length).reverse ++ g.work

def intern (g : Numbering α) (x : α) : Numbering α := if x ∈ g.nodes then g else g.extend [x]

/-- Enters node `i` as a source of `x`, and the number of `x` at the end of a row. -/
def link (i : ℕ) : Numbering α × List ℕ → α → Numbering α × List ℕ
  | (g, row), x =>
    let g' := g.intern x
    let number := g'.nodes.idxOf x
    ({ g' with sources := g'.sources.modify number (List.insert i) }, row ++ [number])

def visit (next : α → List α) (g : Numbering α) : Numbering α :=
  match g.work with
  | [] => g
  | i :: work =>
    let successors := (g.nodes[i]?).elim [] next
    let (g', row) := successors.foldl (link i) ({ g with work }, [])
    { g' with rows := g'.rows.set i row }

omit [DecidableEq α] in
theorem extend_nil (g : Numbering α) : g.extend [] = g := by simp [extend]

omit [DecidableEq α] in
theorem extend_extend (g : Numbering α) (xs ys : List α) :
    (g.extend xs).extend ys = g.extend (xs ++ ys) := by
  simp only [extend, List.append_assoc, List.map_append, List.length_append,
    ← List.range'_append_1, List.reverse_append]

theorem intern_eq (g : Numbering α) (x : α) : g.intern x = g.extend (unseen g.nodes [x]) := by
  by_cases hx : x ∈ g.nodes
  · simp [intern, unseen, hx, extend_nil]
  · simp [intern, unseen, hx]

section Link

/-- After some nodes have been linked to node `i`, they all have numbers, which make up the row. Node
`i` is a source of exactly these, beside what were sources before. -/
structure Linked (i : ℕ) (xs : List α) (g g' : Numbering α) (row : List ℕ) : Prop where
  nodes_eq : g'.nodes = (g.extend (unseen g.nodes xs)).nodes
  rows_eq : g'.rows = (g.extend (unseen g.nodes xs)).rows
  work_eq : g'.work = (g.extend (unseen g.nodes xs)).work
  length_sources : g'.sources.length = g'.nodes.length
  row_eq : row = xs.map g'.nodes.idxOf
  mem_sources : ∀ j k, j ∈ g'.sources.getD k [] ↔ j ∈ g.sources.getD k [] ∨ j = i ∧ k ∈ row

theorem mem_getD_modify_insert {l : List (List ℕ)} {n : ℕ} (hn : n < l.length) :
    j ∈ (l.modify n (List.insert i)).getD k [] ↔ j ∈ l.getD k [] ∨ j = i ∧ k = n := by
  simp only [List.getD_eq_getElem?_getD, List.getElem?_modify]
  by_cases hk : n = k
  · subst hk
    simp [hn, List.mem_insert_iff, or_comm]
  · simp [hk, Ne.symm hk]

omit [DecidableEq α] in
theorem getD_append_map_nil (l : List (List ℕ)) (fresh : List α) (k : ℕ) :
    (l ++ fresh.map fun _ => []).getD k [] = l.getD k [] := by
  simp only [List.getD_eq_getElem?_getD]
  by_cases hk : k < l.length
  · rw [List.getElem?_append_left hk]
  · rw [List.getElem?_append_right (by omega), List.getElem?_eq_none (l := l) (by omega),
      List.getElem?_map]
    cases fresh[k - l.length]? <;> rfl

theorem linked_link (i : ℕ) (hg : g.sources.length = g.nodes.length) (row : List ℕ) (x : α) :
    ∃ g' number, link i (g, row) x = (g', row ++ [number]) ∧ Linked i [x] g g' [number] := by
  have hx : x ∈ (g.intern x).nodes := by
    rw [intern_eq]
    exact subset_append_unseen _ _ (.head _)
  have hlength : (g.intern x).sources.length = (g.intern x).nodes.length := by
    simp [intern_eq, extend, hg]
  have hnumber : (g.intern x).nodes.idxOf x < (g.intern x).sources.length :=
    hlength ▸ List.idxOf_lt_length_of_mem hx
  refine ⟨_, _, rfl, ?_, ?_, ?_, ?_, rfl, fun j k => ?_⟩
  · rw [intern_eq]
  · rw [intern_eq]
  · rw [intern_eq]
  · rw [List.length_modify, hlength]
  · rw [mem_getD_modify_insert hnumber, List.mem_singleton, intern_eq]
    exact or_congr_left (by rw [extend, getD_append_map_nil])

theorem Linked.cons {x : α} {xs : List α} {g₁ g₂ : Numbering α} {number : ℕ} {row : List ℕ}
    (hx : Linked i [x] g g₁ [number]) (hxs : Linked i xs g₁ g₂ row) :
    Linked i (x :: xs) g g₂ (number :: row) := by
  have hfresh : unseen g.nodes (x :: xs) = unseen g.nodes [x] ++ unseen g₁.nodes xs := by
    rw [unseen_cons, hx.nodes_eq]
    rfl
  refine ⟨?_, ?_, ?_, hxs.length_sources, ?_, fun j k => ?_⟩
  · rw [hxs.nodes_eq, hfresh, ← extend_extend]
    simp only [extend, hx.nodes_eq]
  · rw [hxs.rows_eq, hfresh, ← extend_extend]
    simp only [extend, hx.rows_eq]
  · rw [hxs.work_eq, hfresh, ← extend_extend]
    simp only [extend, hx.nodes_eq, hx.work_eq]
  · -- a node keeps its number when others are added
    have hmem : x ∈ g₁.nodes := by
      rw [hx.nodes_eq]
      exact subset_append_unseen _ _ (.head _)
    have hkeep : g₂.nodes.idxOf x = g₁.nodes.idxOf x := by
      rw [hxs.nodes_eq]
      exact List.idxOf_append_of_mem hmem
    rw [List.map_cons, hkeep, ← hxs.row_eq]
    exact congrArg (· :: row) (List.cons.inj hx.row_eq).1
  · rw [hxs.mem_sources, hx.mem_sources, or_assoc, ← and_or_left, List.mem_singleton,
      ← List.mem_cons]

/-- What linking one node after another comes to. -/
theorem linked_foldl (i : ℕ) (xs : List α) (hg : g.sources.length = g.nodes.length)
    (row : List ℕ) :
    ∃ g' row', xs.foldl (link i) (g, row) = (g', row ++ row') ∧ Linked i xs g g' row' := by
  induction xs generalizing g row with
  | nil =>
    refine ⟨g, [], by simp, ?_, ?_, ?_, hg, rfl, by simp⟩
    all_goals exact (congrArg _ g.extend_nil).symm
  | cons x xs ih =>
    obtain ⟨g₁, number, hlink, hx⟩ := linked_link i hg row x
    obtain ⟨g₂, row', hfold, hxs⟩ := ih hx.length_sources (row ++ [number])
    refine ⟨g₂, number :: row', ?_, hx.cons hxs⟩
    rw [List.foldl_cons, hlink, hfold, List.append_assoc]
    rfl

end Link

section Visit

omit [DecidableEq α] in
theorem getD_set_append_self {l : List (List ℕ)} (fresh : List α) (hi : i < l.length)
    (row : List ℕ) : ((l ++ fresh.map fun _ => []).set i row).getD i [] = row := by
  rw [List.getD_eq_getElem?_getD, List.getElem?_set_self (by rw [List.length_append]; omega)]
  rfl

omit [DecidableEq α] in
theorem getD_set_append_of_ne {l : List (List ℕ)} (fresh : List α) (hne : k ≠ i)
    (row : List ℕ) : ((l ++ fresh.map fun _ => []).set i row).getD k [] = l.getD k [] := by
  rw [List.getD_eq_getElem?_getD, List.getElem?_set_ne hne.symm, ← List.getD_eq_getElem?_getD,
    getD_append_map_nil]

structure Visits (next : α → List α) (i : ℕ) (x : α) (work : List ℕ) (g g' : Numbering α) :
    Prop where
  nodes_eq : g'.nodes = g.nodes ++ unseen g.nodes (next x)
  work_eq : g'.work =
    (List.range' g.nodes.length (unseen g.nodes (next x)).length).reverse ++ work
  length_rows : g'.rows.length = g'.nodes.length
  length_sources : g'.sources.length = g'.nodes.length
  row_self : g'.rows.getD i [] = (next x).map g'.nodes.idxOf
  row_other : ∀ k, k ≠ i → g'.rows.getD k [] = g.rows.getD k []
  mem_sources : ∀ j k, j ∈ g'.sources.getD k [] ↔
    j ∈ g.sources.getD k [] ∨ j = i ∧ k ∈ g'.rows.getD i []

theorem visits_visit {work : List ℕ} {x : α} (hwork : g.work = i :: work)
    (hx : g.nodes[i]? = some x) (hrows : g.rows.length = g.nodes.length)
    (hsources : g.sources.length = g.nodes.length) :
    Visits next i x work g (g.visit next) := by
  obtain ⟨g', row, hfold, hlinked⟩ := linked_foldl (g := { g with work }) i (next x) hsources []
  have hvisit : g.visit next = { g' with rows := g'.rows.set i row } := by
    simp only [visit, hwork, hx, Option.elim_some, hfold, List.nil_append]
  have hi : i < g.rows.length := hrows ▸ (List.getElem?_eq_some_iff.mp hx).1
  have hself : (g'.rows.set i row).getD i [] = row := by
    rw [hlinked.rows_eq]
    exact getD_set_append_self _ hi row
  rw [hvisit]
  refine ⟨hlinked.nodes_eq, hlinked.work_eq, ?_, hlinked.length_sources, ?_, fun k hk => ?_, ?_⟩
  · rw [List.length_set, hlinked.rows_eq, hlinked.nodes_eq]
    simp [extend, hrows]
  · rw [hself, hlinked.row_eq]
  · rw [hlinked.rows_eq]
    exact getD_set_append_of_ne _ hk row
  · rw [hself]
    exact hlinked.mem_sources

theorem Visits.mem_work_iff {x : α} {work : List ℕ} {g' : Numbering α}
    (h : Visits next i x work g g') :
    k ∈ g'.work ↔ g.nodes.length ≤ k ∧ k < g'.nodes.length ∨ k ∈ work := by
  rw [h.work_eq, List.mem_append, List.mem_reverse, List.mem_range'_1, h.nodes_eq,
    List.length_append]

/-- Numbers are unique, a node waits to be visited at most once, its row is empty until then and
complete after that, and the sources are the rows read backwards. -/
structure Consistent (next : α → List α) (g : Numbering α) : Prop where
  nodup : g.nodes.Nodup
  length_rows : g.rows.length = g.nodes.length
  length_sources : g.sources.length = g.nodes.length
  work_lt : ∀ i ∈ g.work, i < g.nodes.length
  nodup_work : g.work.Nodup
  waiting : ∀ i ∈ g.work, g.rows.getD i [] = []
  visited : ∀ i x, g.nodes[i]? = some x → i ∉ g.work →
    next x ⊆ g.nodes ∧ g.rows.getD i [] = (next x).map g.nodes.idxOf
  mem_sources : ∀ i k, i ∈ g.sources.getD k [] ↔ k ∈ g.rows.getD i []

theorem consistent_single (start : α) : Consistent next (single start) := by
  have hempty (k : ℕ) : [[]].getD k [] = ([] : List ℕ) := getD_append_map_nil [] [start] k
  refine ⟨by simp [single], rfl, rfl, by simp [single], by simp [single], fun i _ => hempty i, ?_,
    fun i k => by simp only [single, hempty, List.not_mem_nil]⟩
  intro i x hx hi
  have hlt : i < 1 := (List.getElem?_eq_some_iff.mp hx).1
  have hzero : i = 0 := by omega
  exact absurd (hzero ▸ List.mem_singleton_self 0) hi

section Step

variable {x : α} {work : List ℕ} {g' : Numbering α}

/-- A node that has been visited has its row, and keeps it although numbers have been added. -/
theorem Visits.visited (hvisits : Visits next i x work g g') (h : Consistent next g)
    (hwork : g.work = i :: work) (hx : g.nodes[i]? = some x) {y : α} (hy : g'.nodes[k]? = some y)
    (hk : k ∉ g'.work) : next y ⊆ g'.nodes ∧ g'.rows.getD k [] = (next y).map g'.nodes.idxOf := by
  have hlt : k < g.nodes.length := by
    have hlt' := (List.getElem?_eq_some_iff.mp hy).1
    rw [hvisits.mem_work_iff] at hk
    omega
  rw [hvisits.nodes_eq, List.getElem?_append_left hlt] at hy
  by_cases hki : k = i
  · subst hki
    obtain rfl : x = y := Option.some.inj (hx.symm.trans hy)
    exact ⟨hvisits.nodes_eq ▸ subset_append_unseen _ _, hvisits.row_self⟩
  · have hold : k ∉ g.work := by
      rw [hwork, List.mem_cons, not_or]
      exact ⟨hki, fun hmem => hk (hvisits.mem_work_iff.mpr (.inr hmem))⟩
    obtain ⟨hsubset, hrow⟩ := h.visited k y hy hold
    rw [hvisits.row_other k hki, hrow, hvisits.nodes_eq]
    refine ⟨List.subset_append_of_subset_left _ hsubset, List.map_congr_left fun z hz => ?_⟩
    exact (List.idxOf_append_of_mem (hsubset hz)).symm

theorem Visits.sources (hvisits : Visits next i x work g g') (h : Consistent next g)
    (hi : i ∈ g.work) (j k : ℕ) : j ∈ g'.sources.getD k [] ↔ k ∈ g'.rows.getD j [] := by
  rw [hvisits.mem_sources, h.mem_sources]
  by_cases hj : j = i
  · simp only [hj, h.waiting i hi, List.not_mem_nil, true_and, false_or]
  · simp only [hj, hvisits.row_other j hj, false_and, or_false]

end Step

/-- A number on the work list is that of a node, which is visited next. -/
theorem Consistent.exists_visits {work : List ℕ} (h : Consistent next g)
    (hwork : g.work = i :: work) :
    ∃ x, g.nodes[i]? = some x ∧ Visits next i x work g (g.visit next) := by
  have hx : g.nodes[i]? = some _ := List.getElem?_eq_getElem (h.work_lt i (hwork ▸ .head _))
  exact ⟨_, hx, visits_visit hwork hx h.length_rows h.length_sources⟩

/-- A visit keeps a numbering consistent. -/
theorem Consistent.visit (h : Consistent next g) : Consistent next (g.visit next) := by
  cases hwork : g.work with
  | nil =>
    have hsame : g.visit next = g := by simp only [Numbering.visit, hwork]
    rwa [hsame]
  | cons i work =>
    have hmem : i ∈ g.work := hwork ▸ .head _
    obtain ⟨x, hx, hvisits⟩ := h.exists_visits hwork
    obtain ⟨hnotin, hnodup⟩ := List.nodup_cons.mp (hwork ▸ h.nodup_work)
    have hlt : ∀ k ∈ work, k < g.nodes.length := fun k hk => h.work_lt k (hwork ▸ .tail _ hk)
    refine ⟨?_, hvisits.length_rows, hvisits.length_sources, fun k hk => ?_, ?_, fun k hk => ?_,
      fun k y => hvisits.visited h hwork hx, hvisits.sources h hmem⟩
    · rw [hvisits.nodes_eq]
      exact nodup_append_unseen h.nodup _
    · rcases hvisits.mem_work_iff.mp hk with hk | hk
      · exact hk.2
      · rw [hvisits.nodes_eq, List.length_append]
        exact (hlt k hk).trans_le (Nat.le_add_right _ _)
    · rw [hvisits.work_eq, List.nodup_append]
      refine ⟨List.nodup_reverse.mpr List.nodup_range', hnodup, fun k hk l hl => ?_⟩
      have hk : g.nodes.length ≤ k := (List.mem_range'_1.mp (List.mem_reverse.mp hk)).1
      exact ((hlt l hl).trans_le hk).ne'
    · rcases hvisits.mem_work_iff.mp hk with ⟨hk, -⟩ | hk
      · -- a new node has no row yet
        have hne : k ≠ i := ((h.work_lt i hmem).trans_le hk).ne'
        rw [hvisits.row_other k hne, List.getD_eq_getElem?_getD,
          List.getElem?_eq_none (h.length_rows ▸ hk)]
        rfl
      · rw [hvisits.row_other k fun hki => hnotin (hki ▸ hk)]
        exact h.waiting k (hwork ▸ .tail _ hk)

end Visit

section Run

def view (g : Numbering α) : List α × List α := (g.nodes, g.work.filterMap (g.nodes[·]?))

/-- Visits by number are visits of the nodes. -/
theorem Consistent.view_visit (h : Consistent next g) :
    (g.visit next).view = NameResolution.visit next g.view := by
  cases hwork : g.work with
  | nil => simp only [Numbering.visit, view, hwork, List.filterMap_nil, NameResolution.visit]
  | cons i work =>
    obtain ⟨x, hx, hvisits⟩ := h.exists_visits hwork
    have hold : work.filterMap ((g.visit next).nodes[·]?) = work.filterMap (g.nodes[·]?) := by
      apply List.filterMap_congr
      intro k hk
      rw [hvisits.nodes_eq, List.getElem?_append_left (h.work_lt k (hwork ▸ .tail _ hk))]
    rw [view, view, hvisits.work_eq, List.filterMap_append, hold, hwork,
      List.filterMap_cons_some hx, List.filterMap_reverse, hvisits.nodes_eq,
      filterMap_range'_getElem?, NameResolution.visit]

theorem consistent_iterate (h : Consistent next g) (n : ℕ) :
    Consistent next ((visit next)^[n] g) ∧
      ((visit next)^[n] g).view = (NameResolution.visit next)^[n] g.view := by
  induction n generalizing g with
  | zero => exact ⟨h, rfl⟩
  | succ n ih =>
    rw [Function.iterate_succ_apply, Function.iterate_succ_apply, ← h.view_visit]
    exact ih h.visit

/-- The work list runs empty after one visit for each reachable node. Then the nodes are numbered in
the order of exploration, every node has its row, and the sources are the rows read backwards. -/
theorem iterate_visit_single {start : α} (finite : FinitelyReachable next start) :
    let nodes := explore finite
    let g := (visit next)^[nodes.length] (single start)
    g.nodes = nodes ∧ g.work = [] ∧ g.rows = nodes.map (fun x => (next x).map nodes.idxOf) ∧
      g.sources.length = nodes.length ∧ ∀ i k, i ∈ g.sources.getD k [] ↔ k ∈ g.rows.getD i [] := by
  intro nodes g
  have hstart : Consistent next (single start) := consistent_single start
  obtain ⟨h, hview⟩ := consistent_iterate hstart nodes.length
  have hfinal : g.view = (nodes, []) := hview.trans iterate_visit_explore
  obtain ⟨hnodes, hpending⟩ := Prod.mk.inj hfinal
  -- all numbers on the work list have nodes, and no node is left to be visited
  have hwork : g.work = [] := by
    refine List.eq_nil_iff_forall_not_mem.mpr fun i hi => ?_
    have hnone := List.filterMap_eq_nil_iff.mp hpending i hi
    exact absurd (h.work_lt i hi) (List.getElem?_eq_none_iff.mp hnone).not_gt
  -- nothing waits, so every row is complete
  have hrows : g.rows = g.nodes.map fun x => (next x).map g.nodes.idxOf := by
    refine List.ext_getElem? fun i => ?_
    rw [List.getElem?_map]
    cases hx : g.nodes[i]? with
    | none =>
      rw [Option.map_none, List.getElem?_eq_none_iff, h.length_rows]
      exact List.getElem?_eq_none_iff.mp hx
    | some x =>
      have hlt : i < g.rows.length := h.length_rows ▸ (List.getElem?_eq_some_iff.mp hx).1
      have hrow := (h.visited i x hx (hwork ▸ List.not_mem_nil)).2
      rw [List.getD_eq_getElem?_getD, List.getElem?_eq_getElem hlt, Option.getD_some] at hrow
      rw [List.getElem?_eq_getElem hlt, hrow, Option.map_some]
  have hlength := h.length_sources
  change g.nodes = nodes at hnodes
  change g.sources.length = g.nodes.length at hlength
  rw [hnodes] at hrows hlength
  exact ⟨hnodes, hwork, hrows, hlength, h.mem_sources⟩

end Run

end Numbering

end NameResolution
