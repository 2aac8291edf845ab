namespace NameResolution

universe u
variable {α : Type u} (next : α → List α)

inductive Reachable (start : α) : α → Prop
  | refl : Reachable start start
  | step {x y : α} : Reachable start x → y ∈ next x → Reachable start y

def FinitelyReachable (start : α) : Prop :=
  ∃ bound : List α, ∀ x, Reachable next start x → x ∈ bound

variable [DecidableEq α]

def unseen (known : List α) : List α → List α
  | [] => []
  | x :: xs => if x ∈ known then unseen known xs else x :: unseen (x :: known) xs

omit next in
theorem mem_unseen {known xs : List α} {x : α} : x ∈ unseen known xs ↔ x ∈ xs ∧ x ∉ known := by
  induction xs generalizing known with
  | nil => simp [unseen]
  | cons y ys ih =>
    unfold unseen
    split <;> by_cases h : x = y <;> simp_all

omit next in
theorem nodup_unseen (known xs : List α) : (unseen known xs).Nodup := by
  induction xs generalizing known with
  | nil => exact .nil
  | cons y ys ih =>
    unfold unseen
    split
    · exact ih known
    · exact List.nodup_cons.mpr ⟨fun h => (mem_unseen.mp h).2 (.head _), ih _⟩

variable {next}

/-- Visits the newest node of `work` first; `known` grows by the successors not met before. -/
def exploreFrom {start : α} (finite : FinitelyReachable next start) (known work : List α)
    (nodup : known.Nodup) (reachable : ∀ x ∈ known, Reachable next start x)
    (pending : ∀ x ∈ work, x ∈ known) : List α :=
  match work with
  | [] => known
  | x :: work =>
    let fresh := unseen known (next x)
    exploreFrom finite (known ++ fresh) (fresh.reverse ++ work)
      (List.nodup_append.mpr ⟨nodup, nodup_unseen _ _, fun _ hy _ hz e =>
        (mem_unseen.mp hz).2 (e ▸ hy)⟩)
      (fun y hy => (List.mem_append.mp hy).elim (reachable y) fun h =>
        .step (reachable x (pending x (.head _))) (mem_unseen.mp h).1)
      (fun y hy => (List.mem_append.mp hy).elim
        (fun h => List.mem_append_right _ (List.mem_reverse.mp h))
        fun h => List.mem_append_left _ (pending y (.tail _ h)))
termination_by (finite.choose.length - known.length, work.length)
decreasing_by
  have hle : (known ++ unseen known (next x)).length ≤ finite.choose.length := by
    apply List.Nodup.length_le_of_subset
    · exact List.nodup_append.mpr ⟨nodup, nodup_unseen _ _, fun _ hy _ hz e =>
        (mem_unseen.mp hz).2 (e ▸ hy)⟩
    · intro y hy
      apply finite.choose_spec
      exact (List.mem_append.mp hy).elim (reachable y) fun h =>
        .step (reachable x (pending x (.head _))) (mem_unseen.mp h).1
  rw [List.length_append] at hle
  by_cases h : unseen known (next x) = []
  · simp only [h, List.append_nil, List.reverse_nil, List.nil_append]
    exact Prod.Lex.right _ (Nat.lt_succ_self _)
  · have := List.length_pos_iff.mpr h
    apply Prod.Lex.left
    rw [List.length_append]
    omega

/-- All nodes reachable from `start`, in the order in which a depth-first visit meets them. -/
def explore {start : α} (finite : FinitelyReachable next start) : List α :=
  exploreFrom finite [start] [start] (by simp) (by simpa using .refl) (by simp)

section Lemmas

variable {start : α} {finite : FinitelyReachable next start}

theorem nodup_exploreFrom {known work : List α} (nodup : known.Nodup)
    (reachable : ∀ x ∈ known, Reachable next start x) (pending : ∀ x ∈ work, x ∈ known) :
    (exploreFrom finite known work nodup reachable pending).Nodup := by
  fun_induction exploreFrom with
  | case1 => assumption
  | case2 => assumption

theorem reachable_of_mem_exploreFrom {known work : List α} (nodup : known.Nodup)
    (reachable : ∀ x ∈ known, Reachable next start x) (pending : ∀ x ∈ work, x ∈ known) {x : α}
    (h : x ∈ exploreFrom finite known work nodup reachable pending) : Reachable next start x := by
  fun_induction exploreFrom with
  | case1 _ _ hr => exact hr x h
  | case2 _ _ _ _ _ _ _ _ ih => exact ih h

theorem isPrefix_exploreFrom {known work : List α} (nodup : known.Nodup)
    (reachable : ∀ x ∈ known, Reachable next start x) (pending : ∀ x ∈ work, x ∈ known) :
    known <+: exploreFrom finite known work nodup reachable pending := by
  fun_induction exploreFrom with
  | case1 => exact List.prefix_rfl
  | case2 _ _ _ _ _ _ _ _ ih => exact (List.prefix_append _ _).trans ih

theorem exploreFrom_closed {known work : List α} (nodup : known.Nodup)
    (reachable : ∀ x ∈ known, Reachable next start x) (pending : ∀ x ∈ work, x ∈ known)
    (closed : ∀ x ∈ known, x ∈ work ∨ next x ⊆ known) {x : α}
    (h : x ∈ exploreFrom finite known work nodup reachable pending) :
    next x ⊆ exploreFrom finite known work nodup reachable pending := by
  fun_induction exploreFrom with
  | case1 => exact (closed x h).resolve_left List.not_mem_nil
  | case2 known nodup reachable y work _ fresh _ ih =>
    refine ih (fun z hz => ?_) h
    have hnext : next y ⊆ known ++ fresh := fun w hw => by
      by_cases hk : w ∈ known
      · exact List.mem_append_left _ hk
      · exact List.mem_append_right _ (mem_unseen.mpr ⟨hw, hk⟩)
    rcases List.mem_append.mp hz with hz | hz
    · rcases closed z hz with hw | hc
      · rcases List.mem_cons.mp hw with e | hw
        · exact .inr (e ▸ hnext)
        · exact .inl (List.mem_append_right _ hw)
      · exact .inr fun w hw => List.mem_append_left _ (hc hw)
    · exact .inl (List.mem_append_left _ (List.mem_reverse.mpr hz))

theorem nodup_explore : (explore finite).Nodup := nodup_exploreFrom _ _ _

theorem head?_explore : (explore finite).head? = some start := by
  have h : [start] <+: explore finite := isPrefix_exploreFrom _ _ _
  obtain ⟨_, h⟩ := h
  rw [← h]
  rfl

theorem next_subset_explore {x : α} (h : x ∈ explore finite) : next x ⊆ explore finite :=
  exploreFrom_closed _ _ _ (fun _ h => .inl h) h

/-- Exploration finds exactly what is reachable. -/
theorem mem_explore {x : α} : x ∈ explore finite ↔ Reachable next start x := by
  refine ⟨reachable_of_mem_exploreFrom _ _ _, fun h => ?_⟩
  induction h with
  | refl => exact List.mem_of_mem_head? head?_explore
  | step _ hy ih => exact next_subset_explore ih hy

end Lemmas

end NameResolution
