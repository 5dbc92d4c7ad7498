import Mathlib

/-!
Pre- and postconditions for computations that may stop with a fault. `Ensures` speaks of
the results, if there are any; `Yields` also promises that there is one.
-/

namespace Triples

variable {Fault A B S : Type}

def Ensures (x : Except Fault A) (post : A → Prop) : Prop := ∀ a, x = .ok a → post a

def Yields (x : Except Fault A) (post : A → Prop) : Prop := ∃ a, x = .ok a ∧ post a

variable {a : A} {post also mid : A → Prop} {x : Except Fault A} {f : A → Except Fault B} {s : S}
  {n : Nat} {Inv : Nat → S → Prop}

theorem ensures_ok (holds : post a) : Ensures (.ok a : Except Fault A) post := by
  rintro _ ⟨⟩
  exact holds

theorem ensures_error {fault : Fault} : Ensures (.error fault : Except Fault A) post := by
  rintro _ ⟨⟩

theorem ensures_any (x : Except Fault A) : Ensures x fun _ => True := fun _ _ => trivial

theorem ensures_and (first : Ensures x post) (second : Ensures x also) :
    Ensures x fun a => post a ∧ also a :=
  fun a run => ⟨first a run, second a run⟩

theorem ensures_mono (first : Ensures x mid) (weaker : ∀ a, mid a → post a) : Ensures x post :=
  fun a run => weaker a (first a run)

theorem ensures_bind {post : B → Prop} (first : Ensures x mid)
    (next : ∀ a, mid a → Ensures (f a) post) : Ensures (x >>= f) post := by
  cases x with
  | error fault => exact ensures_error
  | ok a => exact next a (first a rfl)

theorem ensures_foldlM {f : S → A → Except Fault S} {Inv : S → Prop}
    (step : ∀ s x, Inv s → Ensures (f s x) Inv) :
    ∀ (items : List A) (s : S), Inv s → Ensures (items.foldlM f s) Inv := by
  intro items
  induction items with
  | nil =>
    intro s holds
    exact ensures_ok holds
  | cons x rest ih =>
    intro s holds
    rw [List.foldlM_cons]
    exact ensures_bind (step s x holds) ih

theorem yields_ok (holds : post a) : Yields (.ok a : Except Fault A) post :=
  ⟨a, rfl, holds⟩

theorem yields_of_any {test : A → Bool} (passes : x.toOption.any test = true) :
    Yields x fun a => test a = true := by
  cases x with
  | error => cases passes
  | ok a => exact yields_ok passes

theorem ensures_of_yields (first : Yields x post) : Ensures x post := by
  obtain ⟨a, rfl, holds⟩ := first
  exact ensures_ok holds

theorem yields_mono (first : Yields x mid) (more : ∀ a, mid a → post a) : Yields x post :=
  first.imp fun a ⟨run, holds⟩ => ⟨run, more a holds⟩

theorem yields_bind {post : B → Prop} (first : Yields x mid) (next : ∀ a, mid a → Yields (f a) post) :
    Yields (x >>= f) post := by
  obtain ⟨a, rfl, holds⟩ := first
  exact next a holds

theorem yields_and (first : Yields x post) (second : Ensures x also) :
    Yields x fun a => post a ∧ also a := by
  obtain ⟨a, run, holds⟩ := first
  exact ⟨a, run, holds, second a run⟩

theorem yields_foldlM {f : S → A → Except Fault S} {Inv : List A → S → Prop} :
    ∀ {items : List A} {done : List A} {s : S}, Inv done s →
      (∀ before x after s, items = before ++ x :: after → Inv (done ++ before) s →
        Yields (f s x) (Inv (done ++ before ++ [x]))) →
      Yields (items.foldlM f s) (Inv (done ++ items)) := by
  intro items
  induction items with
  | nil =>
    intro done s holds _
    rw [List.append_nil]
    exact yields_ok holds
  | cons x rest ih =>
    intro done s holds step
    rw [List.foldlM_cons]
    have head := step [] x rest s rfl (by simpa using holds)
    refine yields_bind head fun s' holds' => ?_
    have tail := @ih (done ++ [x]) s' (by simpa using holds')
      fun before y after s split inv => by
        have := step (x :: before) y after s (by simp [split]) (by simpa using inv)
        simpa using this
    simpa using tail

theorem yields_range {f : S → Nat → Except Fault S} (holds : Inv 0 s)
    (step : ∀ k < n, ∀ s, Inv k s → Yields (f s k) (Inv (k + 1))) :
    Yields ((List.range n).foldlM f s) (Inv n) := by
  induction n with
  | zero => exact yields_ok holds
  | succ n ih =>
    rw [List.range_succ, List.foldlM_append]
    refine yields_bind (ih fun k less => step k (Nat.lt_succ_of_lt less)) fun t inv => ?_
    simpa using step n (Nat.lt_succ_self n) t inv

theorem ensures_range {f : S → Nat → Except Fault S} (holds : Inv 0 s)
    (step : ∀ k < n, ∀ s, Inv k s → Ensures (f s k) (Inv (k + 1))) :
    Ensures ((List.range n).foldlM f s) (Inv n) := by
  induction n with
  | zero => exact ensures_ok holds
  | succ n ih =>
    rw [List.range_succ, List.foldlM_append]
    refine ensures_bind (ih fun k less => step k (Nat.lt_succ_of_lt less)) fun t inv => ?_
    simpa using step n (Nat.lt_succ_self n) t inv

end Triples
