import Mathlib.Data.List.Induction
import Lockstep.Proofs.Registry.Growth
import Lockstep.Proofs.Registry.Rollback

/- The namespaces that were pushed.

   1. `stack` has the root below the namespaces that were pushed. What is popped is never the root, so there
      always is a current namespace (`stack_popNamespace`).
   2. `Forest.IsNamespace` says what may be pushed: the root, or the path of a container. A namespace stays one
      in a forest that grows, and so through every operation but the one that restores a saved forest.
   3. A saved forest need not have the containers that were pushed after it was saved. Restoring it leaves
      every namespace a container exactly when it has them all (`Restorable`, `grounded_perform`). A
      namespace is safe as long as no state is restored that was saved before it was pushed
      (`isNamespace_after`). -/
namespace Lockstep.Registry
open Forest

/-- The root, or the path of a container. -/
def Forest.IsNamespace (f : Forest) (p : Path) : Prop :=
  p = [] ∨ ∃ e ∈ entryAt p f, e.value.kind = .container

instance (f : Forest) (p : Path) : Decidable (f.IsNamespace p) := inferInstanceAs (Decidable (_ ∨ _))

/-- The namespaces that were pushed and not popped, the current one first, and the root below them. -/
def stack (r : Registry) : List Path := r.scopes ++ [[]]

/-- Every namespace on the stack is the root or a container. -/
def Grounded (r : Registry) : Prop := ∀ p ∈ r.stack, r.forest.IsNamespace p

instance (r : Registry) : Decidable r.Grounded := inferInstanceAs (Decidable (∀ p ∈ r.stack, _))

/-- Every namespace on the stack is the root or a container in the forest that was saved last. -/
def Restorable (r : Registry) : Prop := ∀ forest ∈ r.saved.head?, ∀ p ∈ r.stack, forest.IsNamespace p

instance (r : Registry) : Decidable r.Restorable :=
  inferInstanceAs (Decidable (∀ forest ∈ r.saved.head?, _))

section
variable {r : Registry} {op : Operation} {ops : List Operation} {f g : Forest} {p : Path}

/-! ## The stack -/

theorem head?_stack (r : Registry) : r.stack.head? = some r.currentPath := by
  rw [stack, currentPath]
  cases r.scopes <;> rfl

theorem getLast?_stack (r : Registry) : r.stack.getLast? = some [] := List.getLast?_concat

/-- The last namespace is not popped. -/
theorem stack_popNamespace (r : Registry) :
    r.popNamespace.stack = if 1 < r.stack.length then r.stack.tail else r.stack := by
  rw [stack, stack, popNamespace]
  cases r.scopes with
  | nil => rfl
  | cons p scopes => rw [if_pos (by simp)]; rfl

/-- An operation leaves the stack alone, unless it pushes a namespace that it found to be one, or pops. -/
theorem scopes_perform (r : Registry) (op : Operation) :
    (r.perform op).2.scopes = r.scopes ∨
      (∃ scope p, op = .pushNamespace scope ∧ r.validate scope = .ok p ∧
        (r.perform op).2.scopes = p :: r.scopes) ∨
      op = .popNamespace ∧ (r.perform op).2.scopes = r.scopes.tail := by
  obtain hc | ⟨scope, p, hop, hp, hr⟩ | ⟨hop, hr⟩ | ⟨-, hr⟩ | ⟨forest, saved, -, -, hr⟩ :=
    perform_cases r op
  · exact .inl hc.keeps.2.1
  · exact .inr (.inl ⟨scope, p, hop, hp, by rw [hr]⟩)
  · exact .inr (.inr ⟨hop, by rw [hr]; rfl⟩)
  · exact .inl (by rw [hr]; rfl)
  · exact .inl (by rw [hr])

/-! ## Namespaces in forests -/

/-- A container stays one where nothing is lost. -/
theorem Forest.IsNamespace.grows (h : f.IsNamespace p) (hg : Forest.Grows f g) : g.IsNamespace p := by
  obtain hroot | ⟨e, he, hkind⟩ := h
  · exact .inl hroot
  · obtain ⟨later, hlater, hle⟩ := hg.entries he
    exact .inr ⟨later, hlater, hle.kind.trans hkind⟩

theorem isNamespace_of_validate {scope : String} (h : r.validate scope = .ok p) :
    r.forest.IsNamespace p := by
  simp only [validate] at h
  split at h
  · cases h
  · cases h
    exact .inl rfl
  · split at h
    · rename_i hbranch
      cases h
      exact .inr ⟨_, by rw [entryAt, hbranch]; rfl, rfl⟩
    · cases h

/-! ## Restoring -/

theorem grounded_restoreState (h : r.Grounded) :
    (r.perform .restoreState).2.Grounded ↔ r.Restorable := by
  simp only [perform, restoreState, Restorable]
  cases hsaved : r.saved with
  | nil => exact iff_of_true h fun forest hforest => absurd hforest (Option.not_mem_none forest)
  | cons forest saved =>
    simp only [orUnchanged, List.head?_cons, Option.mem_some_iff, forall_eq']
    rfl

/-- What one operation keeps: all namespaces are containers after it if they were before, but for the
    restoring of a forest that does not have them all. -/
theorem grounded_perform (h : r.Grounded) (op : Operation) :
    (r.perform op).2.Grounded ↔ (op = .restoreState → r.Restorable) := by
  by_cases hop : op = .restoreState
  · subst hop
    rw [grounded_restoreState h]
    exact ⟨fun hr _ => hr, fun hr => hr rfl⟩
  · refine iff_of_true (fun p hp => ?_) fun hrestore => absurd hrestore hop
    have hgrows := forest_grows_perform r hop
    rcases List.mem_append.1 hp with hp | hp
    · obtain hr | ⟨scope, q, -, hq, hr⟩ | ⟨-, hr⟩ := scopes_perform r op
      · exact (h p (List.mem_append_left _ (hr ▸ hp))).grows hgrows
      · rw [hr] at hp
        rcases List.mem_cons.1 hp with rfl | hp
        · exact (isNamespace_of_validate hq).grows hgrows
        · exact (h p (List.mem_append_left _ hp)).grows hgrows
      · rw [hr] at hp
        exact (h p (List.mem_append_left _ (List.mem_of_mem_tail hp))).grows hgrows
    · exact .inl (List.mem_singleton.1 hp)

/-- All namespaces are containers throughout a run exactly when each restoring in it finds them all in the
    forest that it brings back. -/
theorem grounded_after (h : r.Grounded) (ops : List Operation) :
    (∀ done, done <+: ops → (r.after done).Grounded) ↔
      ∀ done, done ++ [.restoreState] <+: ops → (r.after done).Restorable := by
  have hlast : ∀ done op, r.after (done ++ [op]) = ((r.after done).perform op).2 := fun done op => by
    rw [after_append, after_cons, after_nil]
  constructor
  · intro hall done hdone
    have hbefore := hall done ((List.prefix_append ..).trans hdone)
    have hafter := hall _ hdone
    rw [hlast] at hafter
    exact (grounded_perform hbefore .restoreState).1 hafter rfl
  · intro hall done
    induction done using List.reverseRecOn with
    | nil => exact fun _ => h
    | append_singleton done op ih =>
      intro hdone
      rw [hlast]
      refine (grounded_perform (ih ((List.prefix_append ..).trans hdone)) op).2 fun hop => ?_
      subst hop
      exact hall done hdone

/-! ## Namespaces that are safe -/

/-- A path that is a namespace now and in the states that were opened since is one after an operation, now
    and in the states that are open then. -/
theorem isNamespace_perform {n m : Nat} (hlevel : op.level n = some m) {opened below : List Forest}
    (hsaved : r.saved = opened ++ below) (hn : opened.length = n) (hp : r.forest.IsNamespace p)
    (hopened : ∀ f ∈ opened, f.IsNamespace p) :
    ∃ opened', (r.perform op).2.saved = opened' ++ below ∧ opened'.length = m ∧
      (r.perform op).2.forest.IsNamespace p ∧ ∀ f ∈ opened', f.IsNamespace p := by
  cases op with
  | saveState =>
    cases hlevel
    refine ⟨r.forest :: opened, ?_, by rw [List.length_cons, hn], hp, ?_⟩
    · rw [List.cons_append, ← hsaved]
      rfl
    · exact List.forall_mem_cons.2 ⟨hp, hopened⟩
  | restoreState =>
    rw [Operation.level] at hlevel
    split at hlevel
    · cases hlevel
    · rename_i hpos
      cases hlevel
      obtain ⟨forest, opened', rfl⟩ :=
        List.exists_cons_of_ne_nil (List.ne_nil_of_length_pos (by omega : 0 < opened.length))
      obtain ⟨hforest, hopened'⟩ := List.forall_mem_cons.1 hopened
      have hr : (r.perform .restoreState).2 = { r with forest, saved := opened' ++ below } := by
        simp only [perform, restoreState, hsaved, List.cons_append, orUnchanged]
      rw [hr]
      exact ⟨opened', rfl, by rw [← hn]; rfl, hforest, hopened'⟩
  | _ =>
    cases hlevel
    refine ⟨opened, Eq.trans (saved_perform ?_ ?_) hsaved, hn, hp.grows (forest_grows_perform r ?_),
      hopened⟩ <;> rintro ⟨⟩

/-- A namespace stays one as long as no state is restored that was saved before. -/
theorem isNamespace_after {n m : Nat} (hlevel : level n ops = some m) {opened below : List Forest}
    (hsaved : r.saved = opened ++ below) (hn : opened.length = n) (hp : r.forest.IsNamespace p)
    (hopened : ∀ f ∈ opened, f.IsNamespace p) : (r.after ops).forest.IsNamespace p := by
  induction ops generalizing r n opened with
  | nil => exact hp
  | cons op ops ih =>
    rw [level] at hlevel
    obtain ⟨k, hop, hops⟩ := Option.bind_eq_some_iff.1 hlevel
    obtain ⟨opened', hsaved', hlength, hp', hopened'⟩ :=
      isNamespace_perform hop hsaved hn hp hopened
    exact ih hops hsaved' hlength hp' hopened'

/-- The namespace at `p` was pushed by one of the operations, with `later` ones behind it. -/
def Pushed (r : Registry) (ops later : List Operation) (p : Path) : Prop :=
  ∃ before scope, ops = before ++ .pushNamespace scope :: later ∧
    (r.after before).validate scope = .ok p

theorem exists_pushed (h : p ∈ (r.after ops).scopes) :
    p ∈ r.scopes ∨ ∃ later, r.Pushed ops later p := by
  induction ops generalizing r with
  | nil => exact .inl h
  | cons op ops ih =>
    rcases ih h with hp | ⟨later, before, scope, rfl, hvalid⟩
    · obtain hr | ⟨scope, q, rfl, hq, hr⟩ | ⟨-, hr⟩ := scopes_perform r op
      · exact .inl (hr ▸ hp)
      · rw [hr] at hp
        rcases List.mem_cons.1 hp with rfl | hp
        · exact .inr ⟨ops, [], scope, rfl, hq⟩
        · exact .inl hp
      · rw [hr] at hp
        exact .inl (List.mem_of_mem_tail hp)
    · exact .inr ⟨later, op :: before, scope, rfl, hvalid⟩

theorem Pushed.isNamespace {later : List Operation} (h : r.Pushed ops later p)
    (hlevel : (level 0 later).isSome) : (r.after ops).forest.IsNamespace p := by
  obtain ⟨before, scope, rfl, hvalid⟩ := h
  obtain ⟨m, hm⟩ := Option.isSome_iff_exists.1 hlevel
  have hpush : ((r.after before).perform (.pushNamespace scope)).2 =
      { r.after before with scopes := p :: (r.after before).scopes } := by
    simp only [perform, pushNamespace, hvalid, orUnchanged]
  rw [after_append, after_cons, hpush]
  generalize r.after before = pushed at hvalid ⊢
  have hp : pushed.forest.IsNamespace p := isNamespace_of_validate hvalid
  have hnone : pushed.saved = [] ++ pushed.saved := rfl
  exact isNamespace_after hm hnone rfl hp (List.forall_mem_nil _)

/-! ## Runs -/

/-- A registry as it comes to be, without entries or read from markup. -/
inductive Initial : Registry → Prop
  | empty (name : String) : Initial (.empty name)
  | ofMarkup {name text : String} {r : Registry} (h : ofMarkup name text = .ok r) : Initial r

theorem Initial.scopes (h : Initial r) : r.scopes = [] := by
  cases h with
  | empty name => rfl
  | @ofMarkup name text _ h =>
    unfold Registry.ofMarkup at h
    split at h
    · cases h
    · rename_i es _
      have hkeeps := (changes_loadAll (.empty name) (Registry.empty name).namespaceText
        (unwrap name es)).keeps
      split at h
      · cases h
      · rename_i hload
        rw [hload] at hkeeps
        cases h
        exact hkeeps.2.1

/-- In every run there always is a current namespace, with the root at the bottom, which is never popped. All
    namespaces are containers throughout the run exactly when every restoring in it finds them all in the
    forest that it brings back. Each namespace above the root was pushed in the run, and it is a container
    unless a state was restored that had been saved before. -/
theorem grounded_iff_restorable (h : Initial r) (ops : List Operation) :
    ((r.after ops).stack.head? = some (r.after ops).currentPath ∧
        (r.after ops).stack.getLast? = some [] ∧
        (r.after ops).popNamespace.stack =
          if 1 < (r.after ops).stack.length then (r.after ops).stack.tail else (r.after ops).stack) ∧
      ((∀ done, done <+: ops → (r.after done).Grounded) ↔
        ∀ done, done ++ [.restoreState] <+: ops → (r.after done).Restorable) ∧
      ∀ p ∈ (r.after ops).scopes, (∃ later, r.Pushed ops later p) ∧
        ∀ later, r.Pushed ops later p → (level 0 later).isSome →
          (r.after ops).forest.IsNamespace p := by
  have hgrounded : r.Grounded := by
    intro p hp
    rw [stack, h.scopes] at hp
    exact .inl (List.mem_singleton.1 hp)
  refine ⟨⟨head?_stack _, getLast?_stack _, stack_popNamespace _⟩, grounded_after hgrounded ops,
    fun p hp => ⟨?_, fun later hpushed hlevel => hpushed.isNamespace hlevel⟩⟩
  rcases exists_pushed hp with hroot | hpushed
  · rw [h.scopes] at hroot
    cases hroot
  · exact hpushed

/-- A container within a container, each pushed at once, and a state saved and restored above them. -/
def descent : List Operation :=
  [.saveState, .add "/a/b" (.container []), .pushNamespace "/a", .pushNamespace "b", .saveState,
    .add "c" (.container []), .pushNamespace "c", .popNamespace, .restoreState, .restoreState]

theorem grounded_descent :
    Initial (empty "index") ∧
      ((empty "index").after (descent.take 9)).stack = [["a", "b"], ["a"], []] ∧
      ((empty "index").after (descent.take 9)).forest.IsNamespace ["a", "b"] ∧
      ¬ ((empty "index").after (descent.take 9)).Restorable ∧
      ¬ ∀ done, done <+: descent → ((empty "index").after done).Grounded := by
  have hinitial : Initial (empty "index") := .empty "index"
  have hpushed : (empty "index").Pushed (descent.take 9) ((descent.take 9).drop 4) ["a", "b"] :=
    ⟨descent.take 3, "b", rfl, by decide +kernel⟩
  have hnot : ¬ ((empty "index").after (descent.take 9)).Restorable := by decide +kernel
  refine ⟨hinitial, by decide +kernel, ?_, hnot, ?_⟩
  · exact ((grounded_iff_restorable hinitial (descent.take 9)).2.2 ["a", "b"] (by decide +kernel)).2 _
      hpushed (by decide)
  · intro hall
    exact hnot ((grounded_iff_restorable hinitial descent).2.1.1 hall (descent.take 9)
      (List.prefix_rfl))

/-- A container added after a state was saved, and the namespace that is left when it is gone. -/
def severed : List Operation :=
  [.saveState, .add "/a" (.container []), .pushNamespace "/a", .restoreState]

/-- A current namespace need not be a container. -/
theorem grounded_fails :
    Reachable ((empty "index").after severed) ∧
      ((empty "index").after severed).stack = [["a"], []] ∧
      Registry.entry? ((empty "index").after severed) ["a"] = none ∧
      ¬ ((empty "index").after severed).Grounded :=
  ⟨(Reachable.empty "index").after severed, by decide +kernel, by decide +kernel, by decide +kernel⟩

end

end Lockstep.Registry
