import UriTemplate.Template.Node
import UriTemplate.Template.VarSpec.Lemmas

/-! # Nodes — reading loses nothing

    `Node.toText_recognize`: the nodes of a text, written one after the other, and
    the part that cannot be read make up the text. -/

namespace UriTemplate

namespace Node

/-- Cutting off the sigil loses nothing. -/
theorem toList_cutSigil_append (s : Text) : (cutSigil s).1.toList ++ (cutSigil s).2 = s := by
  match s with
  | [] => rfl
  | c :: s => by_cases hc : isSigil c = true <;> simp [cutSigil, hc]

/-- Variables that are read one by one are written as they were read. -/
theorem map_toText_of_mapM_ofText? {pieces : List Text} {specs : List VarSpec}
    (h : pieces.mapM VarSpec.ofText? = some specs) : specs.map VarSpec.toText = pieces := by
  induction pieces generalizing specs with
  | nil =>
      obtain rfl : specs = [] := by simpa [eq_comm] using h
      rfl
  | cons piece pieces ih =>
      rw [List.mapM_cons] at h
      obtain ⟨v, hv, h⟩ := Option.bind_eq_some_iff.1 h
      obtain ⟨vs, hvs, h⟩ := Option.bind_eq_some_iff.1 h
      obtain rfl : v :: vs = specs := Option.some.inj h
      rw [List.map_cons, (VarSpec.isValid_toText_of_ofText? hv).2, ih hvs]

/-- Reading an expression loses nothing but the opening brace. -/
theorem toText_expression? {offset : Nat} {s rest : Text} {n : Node}
    (h : expression? offset s = some (n, rest)) : n.toText ++ rest = .char '\x7b' :: s := by
  unfold expression? at h
  split at h
  · exact nomatch h
  · next inside after hcut =>
      have hsigil := toList_cutSigil_append inside
      generalize cutSigil inside = parts at h hsigil
      obtain ⟨specs, hspecs, he⟩ := Option.map_eq_some_iff.1 h
      obtain ⟨rfl, rfl⟩ := Prod.mk.inj he
      rw [toText, map_toText_of_mapM_ofText? hspecs, List.intercalate_splitOn, List.cons_append,
        hsigil, Text.eq_of_cut hcut]
      simp

/-- Reading a run of literal characters loses nothing. -/
theorem toText_literal? {s rest : Text} {n : Node} (h : literal? s = some (n, rest)) :
    n.toText ++ rest = s := by
  obtain ⟨kind, -, hk⟩ := List.exists_of_findSome?_eq_some h
  have happ := kind.run_append s
  split at hk
  · exact nomatch hk
  · next text after _ hrun =>
      obtain ⟨rfl, rfl⟩ := Prod.mk.inj (Option.some.inj hk)
      rwa [hrun] at happ

/-- Reading one node loses nothing. -/
theorem toText_next? {offset : Nat} {s rest : Text} {n : Node}
    (h : next? offset s = some (n, rest)) : n.toText ++ rest = s := by
  unfold next? at h
  split at h
  · exact nomatch h
  · exact toText_expression? h
  · exact toText_literal? h

/-- Reading as far as possible loses nothing. -/
theorem toText_scan (offset : Nat) (s : Text) :
    (scan offset s).1.flatMap toText ++ (scan offset s).2 = s := by
  fun_induction scan offset s with
  | case1 => rfl
  | case2 offset s n rest h hlt nodes remaining hscan ih =>
      rw [List.flatMap_cons, List.append_assoc]
      rw [hscan] at ih
      exact (congrArg (n.toText ++ ·) ih).trans (toText_next? h)

/-- **LOSSLESS**: the nodes of a text and what cannot be read make up the text. -/
theorem toText_recognize (s : Text) :
    (recognize s).1.flatMap toText ++ (recognize s).2 = s :=
  toText_scan 0 s

end Node

end UriTemplate
