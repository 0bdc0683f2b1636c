import UriTemplate.Proofs.Matching.Split
import UriTemplate.Proofs.RoundTrip.Taking
import UriTemplate.Proofs.RoundTrip.Written

/-! # Positions — where the items of a stretch stand

    A stretch of a URL is cut at the separator of its pattern, and each item is read
    with the offset at which it begins.  `StandsIn` says where the texts of a row
    begin, by recursion on the row, just as the offsets are counted when it is read:

    * `Item.standsIn_of_mem`, `Parameter.standsIn_of_mem` — what was read stands where
      it says;
    * `Item.standsIn_of_error`, `Parameter.standsIn_of_error` — so does what could not
      be read;
    * `Pattern.slice_of_standsIn` — and an item of a stretch is found at its position
      in the URL. -/

namespace UriTemplate

/-- The text begins at `position` in a row that begins at an offset, one separator between its
    texts. -/
inductive StandsIn (raw : Text) (position : Nat) : Nat → List Text → Prop where
  | here (raws : List Text) : StandsIn raw position position (raw :: raws)
  | later (first : Text) {offset : Nat} {raws : List Text} :
      StandsIn raw position (offset + first.length + 1) raws →
      StandsIn raw position offset (first :: raws)

namespace StandsIn

variable {raw : Text} {position offset : Nat} {raws : List Text}

/-- In the row, written with its separators, the text stands behind as many characters. -/
theorem exists_intercalate (h : StandsIn raw position offset raws) (sep : CodePoint) :
    ∃ before after, List.intercalate [sep] raws = before ++ (raw ++ after) ∧
      position = offset + before.length := by
  induction h with
  | here raws => exact ⟨[], raws.flatMap (sep :: ·), intercalate_cons sep raw raws, rfl⟩
  | @later first offset raws hraws ih =>
      obtain ⟨before, after, hrow, hposition⟩ := ih
      have hne : raws ≠ [] := by
        rintro rfl
        cases hraws
      refine ⟨first ++ sep :: before, after, ?_, ?_⟩
      · rw [intercalate_cons, flatMap_cons_eq sep hne, hrow]
        simp
      · rw [hposition, List.length_append, List.length_cons]
        omega

end StandsIn

/-! ## Items -/

namespace Item

variable {lists : Bool} {offset : Nat} {raw : Text} {raws : List Text}

/-- A row is read one item after the other. -/
theorem ofRaws_cons_eq_ok {items : List Item} :
    ofRaws lists offset (raw :: raws) = .ok items ↔
      ∃ content rest, ItemContent.ofRaw lists raw = .ok content ∧
        ofRaws lists (offset + raw.length + 1 : Nat) raws = .ok rest ∧
        ⟨content, offset⟩ :: rest = items := by
  rw [ofRaws]
  cases ItemContent.ofRaw lists raw with
  | error cause => simp
  | ok content => simp [Except.map_eq_ok_iff]

/-- The first text that is no item is the error of the row. -/
theorem ofRaws_cons_eq_error {e : MatchError} :
    ofRaws lists offset (raw :: raws) = .error e ↔
      (∃ cause, ItemContent.ofRaw lists raw = .error cause ∧ ⟨cause, some (offset : Int)⟩ = e) ∨
      ∃ content, ItemContent.ofRaw lists raw = .ok content ∧
        ofRaws lists (offset + raw.length + 1 : Nat) raws = .error e := by
  rw [ofRaws]
  cases ItemContent.ofRaw lists raw with
  | error cause => simp
  | ok content => simp [Except.map_eq_error_iff]

/-- Every item stands where it says, and holds what is written there. -/
theorem standsIn_of_mem {items : List Item} (h : ofRaws lists offset raws = .ok items) {item : Item}
    (hitem : item ∈ items) :
    ∃ raw, ∃ position : Nat, StandsIn raw position offset raws ∧
      ItemContent.ofRaw lists raw = .ok item.content ∧ item.position = position := by
  induction raws generalizing offset items with
  | nil =>
      obtain rfl := Except.ok.inj h
      exact (List.not_mem_nil hitem).elim
  | cons raw raws ih =>
      obtain ⟨content, rest, hraw, hraws, rfl⟩ := ofRaws_cons_eq_ok.1 h
      rcases List.mem_cons.1 hitem with rfl | hitem
      · exact ⟨raw, offset, .here raws, hraw, rfl⟩
      · obtain ⟨other, position, hstands, hother⟩ := ih hraws hitem
        exact ⟨other, position, .later raw hstands, hother⟩

/-- A text that is no item has more than one equals sign. -/
theorem cause_of_ofRaw {cause : MatchCause} (h : ItemContent.ofRaw lists raw = .error cause) :
    cause = .repeatedEquals raw := by
  unfold ItemContent.ofRaw at h
  split at h
  · split at h
    · exact (Except.error.inj h).symm
    · cases h
  · split at h <;> cases h

/-- It stands where the error says. -/
theorem standsIn_of_error {e : MatchError} (h : ofRaws lists offset raws = .error e) :
    ∃ raw, ∃ position : Nat, StandsIn raw position offset raws ∧
      e = ⟨.repeatedEquals raw, some position⟩ := by
  induction raws generalizing offset with
  | nil => cases h
  | cons raw raws ih =>
      rcases ofRaws_cons_eq_error.1 h with ⟨cause, hcause, rfl⟩ | ⟨content, -, hraws⟩
      · exact ⟨raw, offset, .here raws, by rw [cause_of_ofRaw hcause]⟩
      · obtain ⟨other, position, hstands, he⟩ := ih hraws
        exact ⟨other, position, .later raw hstands, he⟩

/-- A pair is written with an equals sign. -/
theorem equals_mem_of_isPair {content : ItemContent}
    (h : ItemContent.ofRaw lists raw = .ok content) (hpair : content.IsPair) : .char '=' ∈ raw := by
  by_contra hnot
  rw [ItemContent.ofRaw, Text.cut_of_not_mem hnot] at h
  dsimp only at h
  split at h
  · rw [← Except.ok.inj h] at hpair
    exact hpair
  · rw [← Except.ok.inj h] at hpair
    exact hpair

end Item

/-! ## Parameters -/

namespace Parameter

variable {offset : Nat} {raw : Text} {raws : List Text}

/-- Empty texts are passed over. -/
theorem ofRaws_nil_cons : ofRaws offset ([] :: raws) = ofRaws (offset + 1 : Nat) raws := rfl

/-- The others are read one parameter after the other. -/
theorem ofRaws_cons_eq_ok {ps : List Parameter} (hraw : raw ≠ []) :
    ofRaws offset (raw :: raws) = .ok ps ↔
      ∃ p rest, ofRaw raw offset = .ok p ∧
        ofRaws (offset + raw.length + 1 : Nat) raws = .ok rest ∧ p :: rest = ps := by
  rw [ofRaws]
  · cases ofRaw raw offset with
    | error e => simp
    | ok p => simp [Except.map_eq_ok_iff]
  · exact hraw

/-- The first text that is no parameter is the error of the row. -/
theorem ofRaws_cons_eq_error {e : MatchError} (hraw : raw ≠ []) :
    ofRaws offset (raw :: raws) = .error e ↔ ofRaw raw offset = .error e ∨
      ∃ p, ofRaw raw offset = .ok p ∧
        ofRaws (offset + raw.length + 1 : Nat) raws = .error e := by
  rw [ofRaws]
  · cases ofRaw raw offset with
    | error e => simp
    | ok p => simp [Except.map_eq_error_iff]
  · exact hraw

theorem position_of_ofRaw {position : Int} {p : Parameter} (h : ofRaw raw position = .ok p) :
    p.position = position := by
  unfold ofRaw at h
  split at h
  · split at h
    · cases h
    · rw [← Except.ok.inj h]
  · split at h
    · cases h
    · rw [← Except.ok.inj h]

/-- A text that is no parameter has more than one equals sign, or is a list. -/
theorem error_of_ofRaw {position : Int} {e : MatchError} (h : ofRaw raw position = .error e) :
    e = ⟨.repeatedEquals raw, some position⟩ ∨ e = ⟨.listInQuery raw, some position⟩ := by
  unfold ofRaw at h
  split at h
  · split at h
    · exact Or.inl (Except.error.inj h).symm
    · cases h
  · split at h
    · exact Or.inr (Except.error.inj h).symm
    · cases h

/-- Every parameter stands where it says. -/
theorem standsIn_of_mem {ps : List Parameter} (h : ofRaws offset raws = .ok ps) {p : Parameter}
    (hp : p ∈ ps) :
    ∃ raw, ∃ position : Nat, StandsIn raw position offset raws ∧ p.position = position := by
  induction raws generalizing offset ps with
  | nil =>
      obtain rfl := Except.ok.inj h
      exact (List.not_mem_nil hp).elim
  | cons raw raws ih =>
      by_cases hraw : raw = []
      · subst hraw
        rw [ofRaws_nil_cons] at h
        obtain ⟨other, position, hstands, hother⟩ := ih h hp
        exact ⟨other, position, .later [] hstands, hother⟩
      · obtain ⟨first, rest, hfirst, hrest, rfl⟩ := (ofRaws_cons_eq_ok hraw).1 h
        rcases List.mem_cons.1 hp with rfl | hp
        · exact ⟨raw, offset, .here raws, position_of_ofRaw hfirst⟩
        · obtain ⟨other, position, hstands, hother⟩ := ih hrest hp
          exact ⟨other, position, .later raw hstands, hother⟩

/-- So does a text that is no parameter. -/
theorem standsIn_of_error {e : MatchError} (h : ofRaws offset raws = .error e) :
    ∃ raw, ∃ position : Nat, StandsIn raw position offset raws ∧
      (e = ⟨.repeatedEquals raw, some position⟩ ∨ e = ⟨.listInQuery raw, some position⟩) := by
  induction raws generalizing offset with
  | nil => cases h
  | cons raw raws ih =>
      by_cases hraw : raw = []
      · subst hraw
        rw [ofRaws_nil_cons] at h
        obtain ⟨other, position, hstands, he⟩ := ih h
        exact ⟨other, position, .later [] hstands, he⟩
      · rcases (ofRaws_cons_eq_error hraw).1 h with hfirst | ⟨p, -, hraws⟩
        · exact ⟨raw, offset, .here raws, error_of_ofRaw hfirst⟩
        · obtain ⟨other, position, hstands, he⟩ := ih hraws
          exact ⟨other, position, .later raw hstands, he⟩

end Parameter

/-! ## Items of a stretch -/

namespace Pattern

/-- How many characters of a stretch are its lead. -/
def leadLength (p : Pattern) : Nat := p.style.lead.toList.length

/-- The texts that a stretch is cut into, behind its lead. -/
def cells (p : Pattern) (stretch : Text) : List Text :=
  (stretch.drop p.leadLength).splitOn p.style.separator

theorem leadLength_le_one (p : Pattern) : p.leadLength ≤ 1 := by
  match p with
  | items .commas _ => exact Nat.zero_le 1
  | items .slashes _ | query .question _ | query .ampersand _ => exact Nat.le_refl 1

/-- **PLACE**: an item of a stretch stands at its position in the URL. -/
theorem slice_of_standsIn {p : Pattern} {url raw : Text} {a n position : Nat}
    (hne : (url.drop a).take n ≠ [])
    (h : StandsIn raw position (a + p.leadLength) (p.cells ((url.drop a).take n))) :
    position ≤ url.length ∧ url.slice position (position + raw.length) = raw := by
  obtain ⟨before, after, hrow, rfl⟩ := h.exists_intercalate p.style.separator
  rw [cells, List.intercalate_splitOn] at hrow
  -- behind its lead the stretch goes on with the rest of the URL
  have hurl : url.drop (a + p.leadLength)
      = before ++ (raw ++ (after ++ (url.drop a).drop n)) := by
    have hlead : p.leadLength ≤ ((url.drop a).take n).length :=
      Nat.le_trans p.leadLength_le_one (List.length_pos_iff.2 hne)
    have hcut : ((url.drop a).take n ++ (url.drop a).drop n).drop p.leadLength = _ :=
      List.drop_append_of_le_length hlead
    rw [List.take_append_drop, hrow, List.drop_drop] at hcut
    simpa using hcut
  have hdrop : url.drop (a + p.leadLength + before.length)
      = raw ++ (after ++ (url.drop a).drop n) := by
    rw [← List.drop_drop, hurl, List.drop_left]
  constructor
  · have hlength := congrArg List.length hurl
    have hpos : ((url.drop a).take n).length ≠ 0 := fun hnil => hne (List.length_eq_zero_iff.1 hnil)
    have hlead := p.leadLength_le_one
    rw [List.length_take, List.length_drop] at hpos
    rw [List.length_drop, List.length_append] at hlength
    omega
  · rw [Text.slice, hdrop, Nat.add_sub_cancel_left, List.take_left]

end Pattern

end UriTemplate
