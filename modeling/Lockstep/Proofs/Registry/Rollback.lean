import Lockstep.Proofs.Registry.Ledger

/- Going back to a saved state.

   1. `level` counts the states that operations save and do not restore, and gives up where they restore
      one that was there before them. Operations are `Paired` when they restore all that they save, and
      nothing else.
   2. Changes leave the saved states alone, and so does every operation but the two that are about them
      (`saved_perform`). So operations leave the states that were there before them in their places, under
      as many as they have not restored (`exists_saved_after`).
   3. What is restored after paired operations is therefore what was saved in front of them, whatever the
      operations end with (`rolls_back`). -/
namespace Lockstep.Registry

/-! ## Levels -/

/-- The number of states that are open after an operation, when `n` were before it. -/
def Operation.level (n : Nat) : Operation → Option Nat
  | .saveState => some (n + 1)
  | .restoreState => if n = 0 then none else some (n - 1)
  | _ => some n

/-- The number of states that are open after operations, when `n` were before them. -/
def level (n : Nat) : List Operation → Option Nat
  | [] => some n
  | op :: ops => (op.level n).bind fun m => level m ops

/-- Operations that restore every state that they save, and no other. -/
def Paired (ops : List Operation) : Prop := level 0 ops = some 0

instance (ops : List Operation) : Decidable (Paired ops) :=
  inferInstanceAs (Decidable (level 0 ops = some 0))

section
variable {r : Registry} {op : Operation} {ops : List Operation}

theorem name_perform (r : Registry) (op : Operation) : (r.perform op).2.name = r.name := by
  obtain hc | ⟨scope, p, -, -, hr⟩ | ⟨-, hr⟩ | ⟨-, hr⟩ | ⟨forest, saved, -, -, hr⟩ :=
    perform_cases r op
  · exact hc.keeps.1
  · rw [hr]
  · rw [hr]
    rfl
  · rw [hr]
    rfl
  · rw [hr]

theorem name_after (r : Registry) (ops : List Operation) : (r.after ops).name = r.name := by
  induction ops generalizing r with
  | nil => rfl
  | cons op ops ih => rw [after_cons, ih, name_perform]

/-- Only two operations are about saved states. -/
theorem saved_perform (hs : op ≠ .saveState) (hr : op ≠ .restoreState) :
    (r.perform op).2.saved = r.saved := by
  obtain hc | ⟨scope, p, -, -, h⟩ | ⟨-, h⟩ | ⟨hsave, -⟩ | ⟨forest, saved, hrestore, -⟩ :=
    perform_cases r op
  · exact hc.keeps.2.2
  · rw [h]
  · rw [h]
    rfl
  · exact absurd hsave hs
  · exact absurd hrestore hr

/-- One operation opens a state, closes one, or leaves them as they are; those below stay. -/
theorem exists_saved_perform {n m : Nat} (h : op.level n = some m) {opened below : List Forest}
    (hsaved : r.saved = opened ++ below) (hn : opened.length = n) :
    ∃ opened', (r.perform op).2.saved = opened' ++ below ∧ opened'.length = m := by
  cases op with
  | saveState =>
    cases h
    refine ⟨r.forest :: opened, ?_, by rw [List.length_cons, hn]⟩
    rw [List.cons_append, ← hsaved]
    rfl
  | restoreState =>
    rw [Operation.level] at h
    split at h
    · cases h
    · rename_i hpos
      cases h
      obtain ⟨forest, opened', rfl⟩ :=
        List.exists_cons_of_ne_nil (List.ne_nil_of_length_pos (by omega : 0 < opened.length))
      refine ⟨opened', ?_, by rw [← hn]; rfl⟩
      simp only [perform, restoreState, hsaved, List.cons_append, orUnchanged]
  | _ =>
    cases h
    refine ⟨opened, Eq.trans (saved_perform ?_ ?_) hsaved, hn⟩ <;> rintro ⟨⟩

/-- What was saved before operations that restore nothing of it is still there after them, below the states
    that they opened. -/
theorem exists_saved_after {n m : Nat} (h : level n ops = some m) {opened below : List Forest}
    (hsaved : r.saved = opened ++ below) (hn : opened.length = n) :
    ∃ opened', (r.after ops).saved = opened' ++ below ∧ opened'.length = m := by
  induction ops generalizing r n opened with
  | nil =>
    cases h
    exact ⟨opened, hsaved, hn⟩
  | cons op ops ih =>
    rw [level] at h
    obtain ⟨k, hop, hops⟩ := Option.bind_eq_some_iff.1 h
    obtain ⟨opened₁, hsaved₁, hlength⟩ := exists_saved_perform hop hsaved hn
    exact ih hops hsaved₁ hlength

theorem saved_after_of_paired (h : Paired ops) : (r.after ops).saved = r.saved := by
  have hnone : r.saved = [] ++ r.saved := rfl
  obtain ⟨opened, hsaved, hlength⟩ := exists_saved_after h hnone rfl
  obtain rfl := List.eq_nil_of_length_eq_zero hlength
  exact hsaved

end

/-! ## Restoring -/

/-- The same entries, in the same order, over the same saved states, so that every name means the same and
    every text is the same. Namespaces may differ. -/
structure SameState (r r' : Registry) : Prop where
  forest : r'.forest = r.forest
  saved : r'.saved = r.saved
  entryIn : ∀ name scope, r'.entryIn name scope = r.entryIn name scope
  renderIn : ∀ name scope, r'.renderIn name scope = r.renderIn name scope
  renderRoots : r'.renderRoots = r.renderRoots
  render : r'.render = r.render

theorem sameState_of_forest {r r' : Registry} (hname : r'.name = r.name)
    (hforest : r'.forest = r.forest) (hsaved : r'.saved = r.saved) : r.SameState r' := by
  -- What a name means is a matter of the table alone.
  have hnode : ∀ name scope, r'.nodeIn name scope = r.nodeIn name scope := by
    intro name scope
    rw [nodeIn, nodeIn, ← Table.resolve_of r', ← Table.resolve_of r, hforest]
  refine ⟨hforest, hsaved, fun name scope => ?_, fun name scope => ?_, ?_, ?_⟩
  · rw [Registry.entryIn, Registry.entryIn, hnode]
  · rw [Registry.renderIn, Registry.renderIn, hnode]
  · rw [Registry.renderRoots, Registry.renderRoots, hforest]
  · rw [Registry.render, Registry.render, hforest, hname]

/-- Saving, paired operations and restoring lead back to the same state, whether the operations succeed
    or fail. Where nothing is saved, restoring fails and changes nothing. -/
theorem rolls_back (r : Registry) :
    (∀ ops, Paired ops → ∃ r', (r.saveState.after ops).perform .restoreState = (none, r') ∧
      r.SameState r') ∧
      (r.saved = [] → r.perform .restoreState = (some .noSavedState, r)) := by
  refine ⟨fun ops hops => ?_, fun hnone => ?_⟩
  · have hsaved : (r.saveState.after ops).saved = r.forest :: r.saved := saved_after_of_paired hops
    refine ⟨{ r.saveState.after ops with forest := r.forest, saved := r.saved }, ?_,
      sameState_of_forest (name_after r.saveState ops) rfl rfl⟩
    simp only [perform, restoreState, hsaved, orUnchanged]
  · simp only [perform, restoreState, hnone, orUnchanged]

/-- A value overwritten, an entry that fails halfway in, a state saved and restored within, a name of
    another kind, and a namespace that stays. -/
def detour : List Operation :=
  [.assign "/zone/mass=7", .addAllMarkup "<zone><left/><mass type='string'>x</mass></zone>", .saveState,
    .add "/top" (.datum .empty), .setAttribute "/zone" "unit" "m", .restoreState,
    .add "/zone" (.datum (.int 1)), .pushNamespace "/zone/left"]

/-- A registry with an entry, of which a state was saved before. -/
def weighed : Registry :=
  (Registry.empty "index").after [.saveState, .add "/zone/mass" (.datum (.int 3))]

theorem rolls_back_detour :
    Paired detour ∧
      ((weighed.saveState.after detour).forest.get? ["zone", "mass"]).map Node.value =
        some (.datum (.int 7)) ∧
      ((weighed.saveState.after detour).forest.get? ["zone", "left"]).isSome = true ∧
      (∃ r', (weighed.saveState.after detour).perform .restoreState = (none, r') ∧
        weighed.SameState r') ∧
      (Registry.empty "index").perform .restoreState =
        (some .noSavedState, Registry.empty "index") :=
  ⟨by decide, by decide +kernel, by decide +kernel, (rolls_back weighed).1 detour (by decide),
    (rolls_back (.empty "index")).2 rfl⟩

end Lockstep.Registry
