import Lockstep.Proofs.Registry.Scopes
import Lockstep.Proofs.Value.Text

/- Assignments to entries that are there.

   1. A value brought to a leaf is put in its place (`addAt_leaf`), if it is of the kind of the leaf. What
      stands behind the first sign of an assignment is read as that kind (`assign_of_entry`).
   2. So an assignment under any name that spells an entry keeps the kind and the attributes of the entry, and
      everything else; what a value is written as gives the value, if it is read back at all
      (`assign_keeps_kind`). -/
namespace Lockstep

/-- No value but a container is written with blanks at its ends that count. -/
theorem Value.ofBody_render {v : Value} (hkind : v.kind ≠ .container) (sep : Char) :
    ofBody v.kind (v.render sep) sep = ofText v.kind (v.render sep) sep := by
  cases v with
  | datum d =>
    show ofBody d.kind (String.ofList (d.chars sep)) sep = ofText d.kind (String.ofList (d.chars sep)) sep
    rw [ofBody_datum, ofText, String.toList_ofList]
  | container names => exact absurd rfl hkind

namespace Registry
open Text Forest

section
variable {r r' : Registry} {p : Path} {e : Entry} {v : Value} {name : String}

/-- A value of the kind of a leaf takes the place of its datum, and nothing else changes. -/
theorem addAt_leaf (he : r.entry? p = some e) (hkind : v.kind = e.value.kind) (hleaf : v.kind ≠ .container) :
    ∃ r', r.addAt p v = .ok r' ∧ r' = { r with forest := r'.forest } ∧
      Table.of r'.forest = (Table.of r.forest).put p ⟨v, e.attributes⟩ := by
  obtain ⟨n, hn, rfl⟩ := Option.map_eq_some_iff.1 he
  cases v with
  | container names => exact absurd rfl hleaf
  | datum d =>
    cases n with
    | branch name attributes children => exact absurd hkind hleaf
    | leaf name attributes held =>
      have hput := Table.put_of_update (g := Node.assign (.datum d)) (Node.name_assign _)
        (Node.children_assign _) hn
      have hadd : r.addAt p (.datum d) =
          .ok { r with forest := r.forest.update (Node.assign (.datum d)) p } := by
        simp only [addAt, childNames, checkChildren, hn]
        exact if_pos hkind.symm
      exact ⟨_, hadd, rfl, hput.symm⟩

/-- An assignment brings what its text says for the kind of the entry, and for its separator. -/
theorem assign_of_entry (hname : Path.ofName name r.currentPath.scopeText = .ok p)
    (hsign : ∀ c ∈ name.toList, c ≠ '=') (he : r.entry? p = some e) (text : String) :
    r.assign (name ++ "=" ++ text) =
      (r.addAt p (Value.ofBody e.value.kind text e.separator)).map fun r' => (p, r') := by
  have hcut : cutFirst? '=' (name ++ "=" ++ text).toList = some (name.toList, text.toList) := by
    rw [String.toList_append, String.toList_append, List.append_assoc]
    exact cutFirst?_append name.toList hsign text.toList
  simp only [assign, hcut, String.ofList_toList, namespaceText, hname, he]
  cases r.addAt p (Value.ofBody e.value.kind text e.separator) <;> rfl

theorem wellFormed_currentPath (h : Reachable r) : r.currentPath.WellFormed := by
  have hscopes := (tidy_of_reachable h).scopes
  rw [currentPath]
  cases hcase : r.scopes with
  | nil => exact List.forall_mem_nil _
  | cons scope scopes =>
    rw [hcase] at hscopes
    exact hscopes scope List.mem_cons_self

/-- An assignment under any name of an entry that is no container succeeds, whatever its text. It puts what the
    text says for the kind and the separator of the entry in the place of its value, and leaves everything else
    as it was, in the ledger as well. Where the text is that of a value of this kind that is read back with the
    separator, the entry has that value. -/
theorem assign_keeps_kind (h : Reachable r) (he : r.entry? p = some e) (hkind : e.value.kind ≠ .container)
    (hname : p.SpeltIn r.currentPath name) (text : String) :
    ∃ v r', r.assign (name ++ "=" ++ text) = .ok (p, r') ∧ v.kind = e.value.kind ∧
      r' = { r with forest := r'.forest } ∧
      Table.of r'.forest = (Table.of r.forest).put p ⟨v, e.attributes⟩ ∧
      (Ledger.of r).perform (.assign (name ++ "=" ++ text)) =
        (none, { Ledger.of r with table := (Table.of r.forest).put p ⟨v, e.attributes⟩ }) ∧
      v = Value.ofBody e.value.kind text e.separator ∧
      ∀ w : Value, w.kind = e.value.kind → Value.ofText w.kind (w.render e.separator) e.separator = w →
        text = w.render e.separator → v = w := by
  have hcontains : r.contains p = true := by
    obtain ⟨n, hn, -⟩ := Option.map_eq_some_iff.1 he
    exact Option.isSome_iff_exists.2 ⟨n, hn⟩
  obtain ⟨hne, hp⟩ := wellFormed_of_contains (tidy_of_reachable h).forest hcontains
  have hread : Path.ofName name r.currentPath.scopeText = .ok p :=
    (Path.ofName_scopeText_iff (wellFormed_currentPath h)).2 ⟨hne, hp, hname⟩
  have hsame := Value.kind_ofBody e.value.kind text e.separator
  have hleaf : (Value.ofBody e.value.kind text e.separator).kind ≠ .container := by
    rw [hsame]
    exact hkind
  obtain ⟨r', hadd, hkept, htable⟩ := addAt_leaf he hsame hleaf
  have hassign : r.assign (name ++ "=" ++ text) = .ok (p, r') := by
    rw [assign_of_entry hread (hname.ne_sign hp) he, hadd]
    rfl
  refine ⟨_, r', hassign, hsame, hkept, htable, ?_, rfl, fun w hw hback htext => ?_⟩
  · have hperform : r.perform (.assign (name ++ "=" ++ text)) = (none, r') := by
      simp only [perform, hassign]
      rfl
    rw [Ledger.perform_of, hperform, ← htable, hkept]
    rfl
  · rw [htext, ← hw, Value.ofBody_render (hw ▸ hkind), hback]

end

/-- Numbers parted by blanks, beside a text, in the namespace that holds both. -/
def tuned : Registry := (empty "index").after
  [.add "/zone/gains" (.datum (.floats [⟨0x3f800000⟩])), .setAttribute "/zone/gains" "separator" " ",
    .add "/zone/note" (.datum (.text "a=b")), .pushNamespace "zone"]

/-- The name has blanks and slashes around it; the numbers are a zero with a sign, none, and the smallest. -/
theorem assign_keeps_kind_tuned :
    Reachable tuned ∧
      tuned.entry? ["zone", "gains"] = some ⟨.datum (.floats [⟨0x3f800000⟩]), [("separator", " ")]⟩ ∧
      Path.SpeltIn ["zone", "gains"] tuned.currentPath "\t gains// " ∧
      ∃ r', tuned.assign ("\t gains// " ++ "=" ++ "-0.0 NaN 1e-45") = .ok (["zone", "gains"], r') ∧
        r'.entry? ["zone", "gains"] =
          some ⟨.datum (.floats [⟨0x80000000⟩, ⟨0x7fc00000⟩, ⟨1⟩]), [("separator", " ")]⟩ ∧
        r'.entry? ["zone", "note"] = some ⟨.datum (.text "a=b"), []⟩ := by
  have hreachable : Reachable tuned := (Reachable.empty "index").after _
  have hentry : tuned.entry? ["zone", "gains"] =
      some ⟨.datum (.floats [⟨0x3f800000⟩]), [("separator", " ")]⟩ := by decide +kernel
  have hread : Path.ofName "\t gains// " tuned.currentPath.scopeText = .ok ["zone", "gains"] := by rfl
  have hname := ((Path.ofName_scopeText_iff (wellFormed_currentPath hreachable)).1 hread).2.2
  obtain ⟨v, r', hassign, -, -, htable, -, -, hback⟩ :=
    assign_keeps_kind hreachable hentry (by decide) hname "-0.0 NaN 1e-45"
  obtain rfl := hback (.datum (.floats [⟨0x80000000⟩, ⟨0x7fc00000⟩, ⟨1⟩])) rfl (by decide +kernel)
    (by decide +kernel)
  have hlookup : ∀ q, r'.entry? q = (Table.of r'.forest).lookup? q := fun _ => rfl
  refine ⟨hreachable, hentry, hname, r', hassign, ?_, ?_⟩
  · rw [hlookup, htable]
    rfl
  · rw [hlookup, htable]
    decide +kernel

end Registry
end Lockstep
