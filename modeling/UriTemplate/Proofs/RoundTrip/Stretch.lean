import UriTemplate.Proofs.RoundTrip.Written

/-! # Stretches — what a pattern writes is within its reach

    A stretch of a pattern is nothing, or a lead followed by characters that the
    pattern admits.  All that a pattern writes is a stretch (`isStretch_render`), so
    in an expansion the pattern reaches at least as far as it has written
    (`length_le_reach`), and no farther if what follows can neither open nor continue
    a stretch (`reach_eq_length`). -/

namespace UriTemplate

namespace Expression

variable {keywordLists : Bool} {env : Environment}

/-- A part of an expression comes from one of its variables. -/
theorem exists_of_mem_parts {e : Expression} {text : Text} (h : text ∈ e.parts keywordLists env) :
    ∃ v ∈ e.specs, ∃ value, env.value? keywordLists v.name = some value ∧
      text ∈ v.parts e.operator.style value := by
  obtain ⟨v, hv, htext⟩ := List.mem_flatMap.1 h
  cases hvalue : env.value? keywordLists v.name with
  | none =>
      rw [hvalue] at htext
      exact (List.not_mem_nil htext).elim
  | some value =>
      rw [hvalue] at htext
      exact ⟨v, hv, value, hvalue, htext⟩

end Expression

namespace Pattern

variable {p : Pattern} {keywordLists : Bool} {env : Environment}

/-- A lead, and characters that can stand after it; or nothing. -/
def IsStretch (p : Pattern) : Text → Prop
  | [] => True
  | c :: s => p.isLead c = true ∧ ∀ d ∈ s, p.admits d = true

/-- Can the text stand behind a stretch without being taken for more of it? -/
def Stops (p : Pattern) (rest : Text) : Prop :=
  ∀ c ∈ rest.head?, p.isLead c = false ∧ p.admits c = false

theorem stops_nil (p : Pattern) : p.Stops [] := nofun

/-! ## Reach -/

/-- A pattern reaches at least to the end of a stretch. -/
theorem length_le_reach {stretch : Text} (h : p.IsStretch stretch) (rest : Text) :
    stretch.length ≤ p.reach (stretch ++ rest) := by
  match stretch, h with
  | [], _ => exact Nat.zero_le _
  | c :: s, ⟨hc, hs⟩ =>
      rw [List.cons_append, reach, if_pos hc, List.takeWhile_append_of_pos hs, List.length_append,
        List.length_cons]
      omega

/-- Where nothing more can be taken, a pattern reaches exactly to the end of a stretch. -/
theorem reach_eq_length {stretch rest : Text} (h : p.IsStretch stretch) (hrest : p.Stops rest) :
    p.reach (stretch ++ rest) = stretch.length := by
  match stretch, h, rest, hrest with
  | [], _, [], _ => rfl
  | [], _, d :: rest, hrest =>
      rw [List.nil_append, reach, if_neg]
      · rfl
      · rw [(hrest d rfl).1]
        exact Bool.false_ne_true
  | c :: s, ⟨hc, hs⟩, rest, hrest =>
      have hnone : rest.takeWhile p.admits = [] := by
        match rest, hrest with
        | [], _ => rfl
        | d :: rest, hrest =>
            rw [List.takeWhile_cons, if_neg]
            rw [(hrest d rfl).2]
            exact Bool.false_ne_true
      rw [List.cons_append, reach, if_pos hc, List.takeWhile_append_of_pos hs, hnone,
        List.append_nil, List.length_cons]

/-! ## What is written is a stretch -/

theorem admits_of_isWritten {c : CodePoint} (h : isWritten c = true) : p.admits c = true := by
  simp only [isWritten, isListed, isPlain, Bool.or_eq_true, beq_iff_eq] at h
  simp only [admits, Bool.or_eq_true, beq_iff_eq]
  exact Or.inl h

theorem admits_separator (p : Pattern) : p.admits p.style.separator = true := by
  match p with
  | items .commas _ | items .slashes _ | query .question _ | query .ampersand _ => rfl

/-- A pattern leaves only unreserved characters as they are. -/
theorem escaping_of_mem_expressions {e : Expression} (h : e ∈ p.expressions) :
    e.operator.style.escaping = .unreserved := by
  match p, h with
  | items layout _, h =>
      obtain rfl := List.mem_singleton.1 h
      cases layout <;> rfl
  | query lead (_ :: groups), h =>
      rcases List.mem_cons.1 h with rfl | h
      · cases lead <;> rfl
      · obtain ⟨g, -, rfl⟩ := List.mem_map.1 h
        rfl

theorem isWritten_of_mem_row (hvalid : ∀ v ∈ p.specs, v.IsValid) :
    ∀ text ∈ p.row keywordLists env, ∀ c ∈ text, isWritten c = true := by
  intro text htext
  obtain ⟨e, he, htext⟩ := List.mem_flatMap.1 htext
  obtain ⟨v, hv, value, -, htext⟩ := Expression.exists_of_mem_parts htext
  have hspecs : v ∈ p.specs := by
    rw [specs_eq]
    exact List.mem_flatMap.2 ⟨e, he, hv⟩
  exact VarSpec.isWritten_of_mem_parts (hvalid v hspecs).name (escaping_of_mem_expressions he)
    value text htext

/-- **CONTAINMENT**: what a pattern writes is a stretch of it. -/
theorem isStretch_render (hvalid : ∀ v ∈ p.specs, v.IsValid) :
    p.IsStretch (p.render keywordLists env) := by
  rcases p.render_eq_nil_or keywordLists env with ⟨-, hrender⟩ | ⟨-, lead, hlead, hrender⟩
  · rw [hrender]
    trivial
  · have hadmits : ∀ c ∈ List.intercalate [p.style.separator] (p.row keywordLists env),
        p.admits c = true :=
      forall_mem_intercalate p.admits_separator fun text htext c hc =>
        admits_of_isWritten (isWritten_of_mem_row hvalid text htext c hc)
    rw [hrender]
    generalize List.intercalate [p.style.separator] (p.row keywordLists env) = body at hadmits
    match p, hlead with
    | items .commas specs, hlead =>
        obtain rfl := List.mem_singleton.1 hlead
        cases body with
        | nil => trivial
        | cons c body => exact List.forall_mem_cons.1 hadmits
    | items .slashes specs, hlead =>
        obtain rfl := List.mem_singleton.1 hlead
        exact ⟨rfl, hadmits⟩
    | query _ groups, hlead =>
        rcases List.mem_cons.1 hlead with rfl | hlead
        · exact ⟨rfl, hadmits⟩
        · obtain rfl := List.mem_singleton.1 hlead
          exact ⟨rfl, hadmits⟩

end Pattern

end UriTemplate
