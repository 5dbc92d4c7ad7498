import Mathlib

/-!
Depth-first walks with an explicit stack. `walk` is the loop over a state that answers,
for each popped node, whether to go deeper; `trail` is the list of nodes it enters. A
state that remembers the entered nodes makes the two agree, and the trail is then a
matter of the graph alone: each open node that is reached without crossing a closed one,
once.
-/

namespace StackWalk

variable {Node State Fault : Type}

/-- Pop a node, ask `visit`, and push the nodes it answers with. -/
def walk (visit : State → Node → Except Fault (Option (List Node) × State))
    (exhausted : Fault) : ℕ → List Node → State → Except Fault State
  | _, [], s => .ok s
  | 0, _ :: _, _ => .error exhausted
  | fuel + 1, x :: stack, s =>
    match visit s x with
    | .error fault => .error fault
    | .ok (none, s) => walk visit exhausted fuel stack s
    | .ok (some next, s) => walk visit exhausted fuel (next.reverse ++ stack) s

theorem walk_agree {visit visit' : State → Node → Except Fault (Option (List Node) × State)}
    {exhausted exhausted' : Fault} (Inside : Node → Prop)
    (alike : ∀ s x, Inside x → visit s x = visit' s x)
    (inside : ∀ s x next s', Inside x → visit s x = .ok (some next, s') → ∀ y ∈ next, Inside y) :
    ∀ {fuel fuel' : ℕ} {stack : List Node} {s r r' : State}, (∀ x ∈ stack, Inside x) →
      walk visit exhausted fuel stack s = .ok r → walk visit' exhausted' fuel' stack s = .ok r' →
      r = r' := by
  intro fuel
  induction fuel with
  | zero =>
    intro fuel' stack s r r' _ run run'
    cases stack with
    | nil =>
      simp only [walk, Except.ok.injEq] at run run'
      exact run.symm.trans run'
    | cons x stack => simp [walk] at run
  | succ fuel ih =>
    intro fuel' stack s r r' known run run'
    cases stack with
    | nil =>
      simp only [walk, Except.ok.injEq] at run run'
      exact run.symm.trans run'
    | cons x stack =>
      obtain ⟨here, later⟩ := List.forall_mem_cons.mp known
      cases fuel' with
      | zero => simp [walk] at run'
      | succ fuel' =>
        rw [walk] at run run'
        rw [← alike s x here] at run'
        cases visited : visit s x with
        | error fault => simp [visited] at run
        | ok result =>
          obtain ⟨_ | next, s'⟩ := result
          · rw [visited] at run run'
            exact ih later run run'
          · rw [visited] at run run'
            refine ih (List.forall_mem_append.mpr ⟨fun y pushed => ?_, later⟩) run run'
            exact inside s x next s' here visited y (List.mem_reverse.mp pushed)

variable [DecidableEq Node] (next : Node → List Node) (closed : Node → Bool)

/-- The nodes entered by a walk, after those of `seen`. -/
def trail : ℕ → List Node → List Node → List Node
  | 0, _, seen => seen
  | _ + 1, [], seen => seen
  | fuel + 1, x :: stack, seen =>
    if closed x = true ∨ x ∈ seen then trail fuel stack seen
    else trail fuel ((next x).reverse ++ stack) (seen ++ [x])

/-- Enough fuel: each pop uses one unit, and each node is expanded at most once. -/
def budget (nodes : Finset Node) (stack seen : List Node) : ℕ :=
  stack.length + ∑ x ∈ nodes \ seen.toFinset, (next x).length

theorem budget_skip (nodes : Finset Node) (x : Node) (stack seen : List Node) :
    budget next nodes (x :: stack) seen = budget next nodes stack seen + 1 := by
  simp only [budget, List.length_cons]
  omega

variable {nodes : Finset Node} {stack : List Node}

theorem budget_enter {x : Node} {seen : List Node} (member : x ∈ nodes) (fresh : x ∉ seen) :
    budget next nodes (x :: stack) seen =
      budget next nodes ((next x).reverse ++ stack) (seen ++ [x]) + 1 := by
  have split : nodes \ seen.toFinset = insert x (nodes \ (seen ++ [x]).toFinset) := by
    ext y
    simp only [Finset.mem_sdiff, List.mem_toFinset, Finset.mem_insert, List.mem_append,
      List.mem_singleton]
    by_cases same : y = x
    · subst y; simp [member, fresh]
    · simp [same]
  have outside : x ∉ nodes \ (seen ++ [x]).toFinset := by simp
  simp only [budget, List.length_cons, List.length_append, List.length_reverse]
  rw [split, Finset.sum_insert outside]
  omega

/-- A walk whose state represents the nodes entered so far follows the trail. -/
theorem walk_trail (visit : State → Node → Except Fault (Option (List Node) × State))
    (exhausted : Fault) (Rep : State → List Node → Prop)
    (inside : ∀ x ∈ nodes, ∀ y ∈ next x, y ∈ nodes)
    (skips : ∀ s seen x, Rep s seen → x ∈ nodes → closed x = true ∨ x ∈ seen → ∃ s', visit s x =
      .ok (none, s') ∧ Rep s' seen)
    (enters : ∀ s seen x, Rep s seen → x ∈ nodes → closed x = false → x ∉ seen → ∃ s', visit s x =
      .ok (some (next x), s') ∧ Rep s' (seen ++ [x])) :
    ∀ (fuel : ℕ) (stack seen : List Node) (s : State), Rep s seen →
      (∀ x ∈ stack, x ∈ nodes) → budget next nodes stack seen ≤ fuel →
      ∃ s', walk visit exhausted fuel stack s = .ok s' ∧
        Rep s' (trail next closed fuel stack seen) := by
  intro fuel
  induction fuel with
  | zero =>
    intro stack seen s rep _ enough
    cases stack with
    | nil => exact ⟨s, rfl, rep⟩
    | cons x stack => simp [budget] at enough
  | succ fuel ih =>
    intro stack seen s rep known enough
    cases stack with
    | nil => exact ⟨s, rfl, rep⟩
    | cons x stack =>
      have member := known x List.mem_cons_self
      have rest : ∀ y ∈ stack, y ∈ nodes := fun y later =>
        known y (List.mem_cons_of_mem x later)
      by_cases stop : closed x = true ∨ x ∈ seen
      · obtain ⟨s', visited, rep'⟩ := skips s seen x rep member stop
        rw [budget_skip] at enough
        obtain ⟨s'', run, final⟩ := ih stack seen s' rep' rest (by omega)
        exact ⟨s'', by simp only [walk, visited, run], by simpa only [trail, if_pos stop]⟩
      · have isOpen : closed x = false := by simpa using fun shut => stop (Or.inl shut)
        have fresh : x ∉ seen := fun old => stop (Or.inr old)
        obtain ⟨s', visited, rep'⟩ := enters s seen x rep member isOpen fresh
        rw [budget_enter next member fresh] at enough
        obtain ⟨s'', run, final⟩ := ih ((next x).reverse ++ stack) (seen ++ [x]) s' rep' (by
          intro y later
          rcases List.mem_append.mp later with new | old
          · exact inside x member y (List.mem_reverse.mp new)
          · exact rest y old) (by omega)
        exact ⟨s'', by simp only [walk, visited, run], by simpa only [trail, if_neg stop]⟩

theorem seen_subset_trail : ∀ (fuel : ℕ) (stack seen : List Node) (x : Node),
    x ∈ seen → x ∈ trail next closed fuel stack seen := by
  intro fuel
  induction fuel with
  | zero => intro stack seen x member; exact member
  | succ fuel ih =>
    intro stack seen x member
    cases stack with
    | nil => exact member
    | cons y stack =>
      simp only [trail]
      split
      · exact ih _ _ _ member
      · exact ih _ _ _ (List.mem_append_left _ member)

theorem trail_nodup : ∀ (fuel : ℕ) (stack seen : List Node), seen.Nodup →
    (trail next closed fuel stack seen).Nodup := by
  intro fuel
  induction fuel with
  | zero => intro stack seen nodup; exact nodup
  | succ fuel ih =>
    intro stack seen nodup
    cases stack with
    | nil => exact nodup
    | cons x stack =>
      simp only [trail]
      split
      · exact ih _ _ nodup
      · grind

theorem trail_sound : ∀ (fuel : ℕ) (stack seen : List Node) (x : Node),
    x ∈ trail next closed fuel stack seen → x ∈ seen ∨ (closed x = false ∧
      ∃ y ∈ stack, closed y = false ∧
        Relation.ReflTransGen (fun a b => b ∈ next a ∧ closed b = false) y x) := by
  intro fuel
  induction fuel with
  | zero => intro stack seen x member; exact Or.inl member
  | succ fuel ih =>
    intro stack seen x member
    cases stack with
    | nil => exact Or.inl member
    | cons z stack =>
      simp only [trail] at member
      split at member
      · grind
      · next stop =>
        have openZ : closed z = false := by simpa using fun shut => stop (Or.inl shut)
        rcases ih _ _ _ member with old | ⟨isOpen, y, inside, start, path⟩
        · grind
        · rcases List.mem_append.mp inside with child | later
          · exact Or.inr ⟨isOpen, z, List.mem_cons_self, openZ,
              .head ⟨List.mem_reverse.mp child, start⟩ path⟩
          · exact Or.inr ⟨isOpen, y, List.mem_cons_of_mem z later, start, path⟩

/-- With enough fuel nothing reachable is left out: what is pushed is entered or closed. -/
theorem trail_absorbs (inside : ∀ x ∈ nodes, ∀ y ∈ next x, y ∈ nodes) :
    ∀ (fuel : ℕ) (stack seen : List Node), (∀ x ∈ stack, x ∈ nodes) →
      budget next nodes stack seen ≤ fuel →
      (∀ x ∈ stack, closed x = false → x ∈ trail next closed fuel stack seen) ∧
      ∀ x ∈ trail next closed fuel stack seen, x ∈ seen ∨
        ∀ y ∈ next x, closed y = false → y ∈ trail next closed fuel stack seen := by
  intro fuel
  induction fuel with
  | zero =>
    intro stack seen _ enough
    cases stack with
    | nil => exact ⟨by simp, fun x member => Or.inl member⟩
    | cons x stack => simp [budget] at enough
  | succ fuel ih =>
    intro stack seen known enough
    cases stack with
    | nil => exact ⟨by simp, fun x member => Or.inl member⟩
    | cons z stack =>
      have member := known z List.mem_cons_self
      have rest : ∀ y ∈ stack, y ∈ nodes := fun y later =>
        known y (List.mem_cons_of_mem z later)
      by_cases stop : closed z = true ∨ z ∈ seen
      · rw [budget_skip] at enough
        simp only [trail, if_pos stop]
        obtain ⟨pushed, expanded⟩ := ih stack seen rest (by omega)
        refine ⟨fun x inside isOpen => ?_, expanded⟩
        rcases List.mem_cons.mp inside with rfl | later
        · refine seen_subset_trail next closed _ _ _ _ ?_
          simpa [isOpen] using stop
        · exact pushed x later isOpen
      · have openZ : closed z = false := by simpa using fun shut => stop (Or.inl shut)
        have fresh : z ∉ seen := fun old => stop (Or.inr old)
        rw [budget_enter next member fresh] at enough
        simp only [trail, if_neg stop]
        obtain ⟨pushed, expanded⟩ := ih ((next z).reverse ++ stack) (seen ++ [z]) (by
          intro y later
          rcases List.mem_append.mp later with new | old
          · exact inside z member y (List.mem_reverse.mp new)
          · exact rest y old) (by omega)
        refine ⟨fun x inside isOpen => ?_, fun x inside => ?_⟩
        · rcases List.mem_cons.mp inside with rfl | later
          · exact seen_subset_trail next closed _ _ _ _ (by simp)
          · exact pushed x (List.mem_append_right _ later) isOpen
        · grind

theorem mem_trail {fuel : ℕ} (inside : ∀ x ∈ nodes, ∀ y ∈ next x, y ∈ nodes)
    (downward : ∀ x ∈ nodes, closed x = true → ∀ y ∈ next x, closed y = true)
    (known : ∀ x ∈ stack, x ∈ nodes) (enough : budget next nodes stack [] ≤ fuel) (x : Node) :
    x ∈ trail next closed fuel stack [] ↔
      closed x = false ∧ ∃ y ∈ stack, Relation.ReflTransGen (fun a b => b ∈ next a) y x := by
  constructor
  · intro member
    rcases trail_sound next closed fuel stack [] x member with none | ⟨isOpen, y, start, _, path⟩
    · simp at none
    · exact ⟨isOpen, y, start, Relation.ReflTransGen.mono (fun _ _ step => step.1) _ _ path⟩
  · rintro ⟨isOpen, y, start, path⟩
    obtain ⟨pushed, expanded⟩ := trail_absorbs next closed inside fuel stack [] known enough
    have within : ∀ z, Relation.ReflTransGen (fun a b => b ∈ next a) y z → z ∈ nodes := by
      intro z reach
      induction reach with
      | refl => exact known y start
      | tail _ step ih => exact inside _ ih _ step
    -- The node before an open node is open, so along the path each one is entered.
    induction path with
    | refl => exact pushed y start isOpen
    | tail path step ih =>
      rename_i z x
      have isOpenZ : closed z = false := by
        by_contra shut
        have := downward z (within z path) (by simpa using shut) x step
        simp [isOpen] at this
      rcases expanded z (ih isOpenZ) with none | all
      · simp at none
      · exact all x step isOpen

end StackWalk
