import UriTemplate.Proofs.RoundTrip.Queries
import UriTemplate.Proofs.Template.Printing

/-! # Encoded names — a query does not find the variables it has written

    A name can have triplets.  Expansion writes the name of a query variable as it
    stands in the template, while matching decodes the name of a parameter before it
    is compared.  A name with a triplet is longer than what it stands for, so the two
    are never the same, and the variable is lost:

    * `Utf8.length_step_le` — a byte makes no more than one character;
    * `VarSpec.length_decodeFrom_le` — so a triplet of a name, which is a single byte,
      makes it shorter;
    * `VarSpec.decode_ne_of_isName` — and a name with a triplet is not what it stands
      for;
    * `Template.matchUrl_render_encoded_name` — the parameter is left over, and the
      variable comes back without a value. -/

namespace UriTemplate

/-! ## Names are shorter decoded -/

namespace Utf8

/-- A byte between characters is a character, or begins one. -/
theorem length_start (b : UInt8) : (start b).1.length + (start b).2.toList.length = 1 := by
  unfold start
  dsimp only
  split_ifs <;> rfl

/-- A character under way counted, no byte makes more than one. -/
theorem length_step_le (state : Option Pending) (b : UInt8) :
    (step state b).1.length + (step state b).2.toList.length ≤ state.toList.length + 1 := by
  have hstart := length_start b
  cases state with
  | none => exact Nat.le_of_eq hstart
  | some p =>
      rw [step]
      split
      · rw [Pending.take]
        split
        · exact Nat.le_succ 1
        · exact Nat.le_succ 1
      · simp only [List.length_cons, Option.toList_some, List.length_nil]
        omega

end Utf8

namespace VarSpec

/-- **SHORTER**: a triplet of a name makes one character at most, and what is under way another. -/
theorem length_decodeFrom_le {following : Bool} {s : Text} (h : isNameRest following s = true)
    (state : Option Utf8.Pending) :
    (Percent.decodeFrom state s).length + 2 * s.count (.char '%')
      ≤ state.toList.length + s.length := by
  have hfinish : ∀ state : Option Utf8.Pending,
      (Utf8.finish state).length = state.toList.length := by rintro (_ | p) <;> rfl
  fun_induction isNameRest following s generalizing state with
  | case1 => exact Nat.le_of_eq (hfinish state)
  | case2 following s ih =>
      rw [Bool.and_eq_true] at h
      have hs := ih h.2 none
      rw [Percent.decodeFrom_cons (by decide), List.count_cons_of_ne (by decide),
        List.length_append, List.length_cons, List.length_cons, hfinish, Percent.decode]
      rw [Option.toList_none, List.length_nil] at hs
      omega
  | case3 _ high low s ih =>
      simp only [Bool.and_eq_true] at h
      obtain ⟨⟨hhigh, hlow⟩, hrest⟩ := h
      obtain ⟨i, hi⟩ := Option.isSome_iff_exists.1 hhigh
      obtain ⟨j, hj⟩ := Option.isSome_iff_exists.1 hlow
      have hbyte : Percent.byte? high low = some (UInt8.ofNat (16 * i + j)) := by
        rw [Percent.byte?, hi, hj]
      have hne : ∀ c : CodePoint, Hex.isDigit c = true → c ≠ '%' := by
        rintro c hc rfl
        exact absurd hc (by decide)
      have hstep := Utf8.length_step_le state (UInt8.ofNat (16 * i + j))
      have hs := ih hrest (Utf8.step state (UInt8.ofNat (16 * i + j))).2
      rw [Percent.decodeFrom, hbyte, List.count_cons_self, List.count_cons_of_ne (hne high hhigh),
        List.count_cons_of_ne (hne low hlow), List.length_append]
      simp only [List.length_cons]
      omega
  | case4 _ d s _ hd ih =>
      rw [Bool.and_eq_true] at h
      have hs := ih h.2 none
      have hne : d ≠ '%' := by
        rintro rfl
        exact absurd h.1 (by decide)
      rw [Percent.decodeFrom_cons hne, List.count_cons_of_ne hne, List.length_append,
        List.length_cons, List.length_cons, hfinish, Percent.decode]
      rw [Option.toList_none, List.length_nil] at hs
      omega

/-- So a name with a triplet is not what it stands for. -/
theorem decode_ne_of_isName {name : Text} (hname : isName name = true) (h : .char '%' ∈ name) :
    Percent.decode name ≠ name := by
  intro heq
  have hdecode := length_decodeFrom_le hname none
  have hcount : 0 < name.count (.char '%') := List.count_pos_iff.2 h
  rw [← Percent.decode, heq, Option.toList_none, List.length_nil] at hdecode
  omega

end VarSpec

/-! ## A query of one variable -/

/-- A parameter of another name is left over, and refused where none may be left. -/
theorem Declared.bind_of_ne {v : VarSpec} (hexplode : v.explode = false) {p : Parameter}
    (hne : p.name ≠ v.name) (strict : Bool) :
    bind strict [(⟨v, 0⟩ : Declared Nat)] [p]
      = if strict then .error ⟨.extraItems 1, some p.position⟩ else .ok [(v.name, none)] := by
  have hall : Finding.all [(⟨v, 0⟩ : Declared Nat)] [p] = ([⟨⟨v, 0⟩, none⟩], [p]) := by
    simp [Finding.all, Finding.firstRound, Finding.secondRound, Finding.thirdRound,
      Parameter.takeFirst, hexplode, hne]
  rw [bind, hall]
  cases strict with
  | true => rfl
  | false => simp [Finding.settle, Text.distinct]

/-- A scalar that is not null is the value of its variable. -/
theorem Environment.value?_singleton (keywordLists : Bool) (name : Text) {s : Scalar}
    (hs : s ≠ .null) :
    Environment.value? [(name, .scalar s)] keywordLists name = some (.scalar s) := by
  have hget : OrderedMap.get? [(name, Datum.scalar s)] name = some (.scalar s) := if_pos rfl
  rw [Environment.value?, hget]
  cases s with
  | null => exact absurd rfl hs
  | bool | int | float | text | bytes | member => rfl

namespace Pattern

/-- A query of one variable. -/
def queryOf (name : Text) : Pattern := query .question [[⟨name, false, none⟩]]

/-- It writes the name as it stands. -/
theorem render_queryOf (keywordLists : Bool) (name : Text) {s : Scalar} (hs : s ≠ .null) :
    (queryOf name).render keywordLists [(name, .scalar s)]
      = .char '?' :: (name ++ .char '=' :: Percent.encode .unreserved s.toText) := by
  have hparts : Expression.parts ⟨.query, [⟨name, false, none⟩]⟩ keywordLists [(name, .scalar s)]
      = [name ++ .char '=' :: Percent.encode .unreserved s.toText] := by
    rw [Expression.parts, List.flatMap_singleton]
    dsimp only
    rw [Environment.value?_singleton keywordLists name hs]
    rfl
  show Expression.render ⟨.query, _⟩ _ _ ++ [] = _
  rw [Expression.render, hparts, List.append_nil]
  dsimp only
  rw [List.intercalate_singleton]
  rfl

/-- It does not find a parameter of a name that is written with triplets. -/
theorem bind_queryOf {name value : Text} (hname : VarSpec.isName name = true) (h : .char '%' ∈ name)
    (hvalue : ∀ c ∈ value, isPlain c = true) (strict : Bool) :
    (queryOf name).bind strict (.char '?' :: (name ++ .char '=' :: value)) 0
      = if strict then .error ⟨.extraItems 1, some 1⟩ else .ok [(name, none)] := by
  have hplain := VarSpec.isPlain_of_isNameRest hname
  have hampersand : .char '&' ∉ name ++ .char '=' :: value := by
    rw [List.mem_append, List.mem_cons, not_or, not_or]
    exact ⟨not_mem_of_forall hplain (by decide), by decide, not_mem_of_forall hvalue (by decide)⟩
  have hsplit := List.splitOn_intercalate ('&' : CodePoint) (List.forall_mem_singleton.2 hampersand)
    (List.cons_ne_nil _ [])
  rw [List.intercalate_singleton] at hsplit
  have hentry : .char '=' ∉ (name, value).1 ∧ .char '=' ∉ (name, value).2 :=
    ⟨not_mem_of_forall hplain (by decide), not_mem_of_forall hvalue (by decide)⟩
  have hwritten : Parameter.ofRaw (name ++ .char '=' :: value) 1
      = .ok ⟨Percent.decode name, some value, 1⟩ :=
    Parameter.ofRaw_written hentry.1 hentry.2 1
  have hread : Query.read (name ++ .char '=' :: value) 1
      = .ok [⟨Percent.decode name, some value, 1⟩] := by
    rw [Query.read, hsplit, Parameter.ofRaws, hwritten]
    · rfl
    · exact List.append_ne_nil_of_right_ne_nil name (List.cons_ne_nil _ _)
  show Query.bind strict [[⟨name, false, none⟩]] (name ++ .char '=' :: value) 1 = _
  rw [Query.bind, hread]
  exact Declared.bind_of_ne rfl (VarSpec.decode_ne_of_isName hname h) strict

end Pattern

namespace Template

/-- The template of a query of one variable. -/
def queryOf (config : Config) (name : Text) : Template :=
  ⟨"\x7b?".toText ++ name ++ "\x7d".toText, [.expression ⟨.query, [⟨name, false, none⟩]⟩], config,
    List.forall_mem_singleton.2 (List.cons_ne_nil _ _)⟩

theorem parse_queryOf (config : Config) {name : Text} (hname : VarSpec.isName name = true) :
    parse config ("\x7b?".toText ++ name ++ "\x7d".toText) = .ok (queryOf config name) := by
  have hvalid : AreWellFormed [⟨name, false, none⟩] :=
    ⟨nofun, List.forall_mem_singleton.2 ⟨hname, nofun, nofun⟩⟩
  have hnormal : Segment.AreNormal [.expression ⟨.query, [⟨name, false, none⟩]⟩] :=
    .cons_expression hvalid ⟨nofun, List.isChain_nil⟩
  have htext : [Segment.expression ⟨.query, [⟨name, false, none⟩]⟩].flatMap Segment.toText
      = "\x7b?".toText ++ name ++ "\x7d".toText := by
    show Expression.toText _ ++ [] = _
    rw [Expression.toText, List.map_singleton, List.intercalate_singleton, List.append_nil]
    rfl
  exact parse_eq_ok_iff.2 ⟨rfl, rfl, hnormal, htext⟩

/-- **LOST**: a query variable whose name has a triplet is not found in what was written for it.
    What was written is left over, which is refused where parameters may not be left. -/
theorem matchUrl_render_encoded_name {name : Text} (hname : VarSpec.isName name = true)
    (h : .char '%' ∈ name) {s : Scalar} (hs : s ≠ .null) (config : Config) :
    ∃ t, parse config ("\x7b?".toText ++ name ++ "\x7d".toText) = .ok t ∧
      (t.matchUrl (t.render [(name, .scalar s)])).value =
        if config.strictQuery then .error (.mismatch ⟨.extraItems 1, some 1⟩)
        else .ok ⟨[(name, none)]⟩ := by
  refine ⟨_, parse_queryOf config hname, ?_⟩
  have hparts : (queryOf config name).parts = .ok [.pattern (.queryOf name)] := rfl
  have hstretch : (Pattern.queryOf name).IsStretch
      ((Pattern.queryOf name).render config.keywordLists [(name, .scalar s)]) :=
    Pattern.isStretch_render (List.forall_mem_singleton.2 ⟨hname, nofun, nofun⟩)
  rw [Matching.matchUrl_value _ hparts, render_eq hparts, List.flatMap_singleton]
  show Matching.toResult (Matching.solve config.strictQuery _ 0
    (Pattern.render config.keywordLists _ _)) = _
  rw [Matching.solve_singleton hstretch, Pattern.render_queryOf _ _ hs,
    Pattern.bind_queryOf hname h (Percent.isPlain_of_mem_encode _)]
  cases config.strictQuery <;> rfl

/-- A space in the name. -/
theorem matchUrl_render_encoded_name_space :
    let t : Template := .mk "\x7b?a%20b\x7d".toText
      [.expression ⟨.query, [⟨"a%20b".toText, false, none⟩]⟩] ⟨true, false⟩
    let env : Environment := [("a%20b".toText, .scalar (.text "1".toText))]
    t.render env = "?a%20b=1".toText ∧
    (t.matchUrl (t.render env)).value = .ok ⟨[("a%20b".toText, none)]⟩ := by
  intro t env
  have hparse : parse ⟨true, false⟩ "\x7b?a%20b\x7d".toText = .ok t := by decide +kernel
  have hname : VarSpec.isName "a%20b".toText = true := rfl
  have hs : Scalar.text "1".toText ≠ .null := nofun
  obtain ⟨u, hu, hvalue⟩ := matchUrl_render_encoded_name hname (by decide) hs ⟨true, false⟩
  obtain rfl : t = u := Except.ok.inj (hparse.symm.trans hu)
  exact ⟨by decide, hvalue⟩

end Template

end UriTemplate
