import Mathlib.Data.List.Forall2
import UriTemplate.Match.Query
import UriTemplate.Proofs.RoundTrip.Alphabet

/-! # Reading — rows of texts taken apart again

    A row that was joined by a separator is split at the separator into the same
    texts.  What each text then holds is read by itself:

    * `ItemContent.ofRaw_plain`, `ItemContent.ofRaw_listed`, `ItemContent.ofRaw_pair` —
      an item with and without an equals sign;
    * `Item.exists_read` — a row of items;
    * `Query.exists_read` — a row of parameters with their names. -/

namespace UriTemplate

/-! ## Lists -/

/-- Two encoded texts or more, with commas between them, are split into the texts. -/
theorem splitOn_commaJoined {texts : List Text} (hlength : 2 ≤ texts.length)
    (hwell : ∀ s ∈ texts, s.IsWellFormed) :
    .char ',' ∈ commaJoined (texts.map (Percent.encode .unreserved)) ∧
    ((commaJoined (texts.map (Percent.encode .unreserved))).splitOn (.char ',')).map Percent.decode
      = texts := by
  match texts, hlength with
  | s :: t :: texts, _ =>
      constructor
      · rw [commaJoined, List.map_cons, List.map_cons, List.intercalate_cons_cons,
          List.append_assoc]
        exact List.mem_append_right _ List.mem_cons_self
      · have hsplit : (commaJoined ((s :: t :: texts).map (Percent.encode .unreserved))).splitOn
            (.char ',') = (s :: t :: texts).map (Percent.encode .unreserved) := by
          refine List.splitOn_intercalate (',' : CodePoint) ?_ (List.cons_ne_nil _ _)
          intro encoded he
          obtain ⟨text, -, rfl⟩ := List.mem_map.1 he
          exact not_mem_of_forall (Percent.isPlain_of_mem_encode text) rfl
        rw [hsplit, List.map_map]
        exact (List.map_congr_left fun text ht => Percent.decode_encode _ (hwell text ht)).trans
          (List.map_id _)

namespace Value

/-- An encoded text is a text by itself. -/
theorem ofRaw_encode (lists : Bool) {s : Text} (hwell : s.IsWellFormed) :
    ofRaw lists (Percent.encode .unreserved s) = ofText s := by
  have hcomma : .char ',' ∉ Percent.encode .unreserved s :=
    not_mem_of_forall (Percent.isPlain_of_mem_encode s) rfl
  rw [ofRaw, if_neg fun h => hcomma h.2, Percent.decode_encode _ hwell]

/-- Two encoded texts or more, with commas between them, are a list of the texts. -/
theorem ofRaw_commaJoined {texts : List Text} (hlength : 2 ≤ texts.length)
    (hwell : ∀ s ∈ texts, s.IsWellFormed) :
    ofRaw true (commaJoined (texts.map (Percent.encode .unreserved))) = ofTexts texts := by
  obtain ⟨hcomma, hsplit⟩ := splitOn_commaJoined hlength hwell
  rw [ofRaw, if_pos ⟨rfl, hcomma⟩, hsplit]

end Value

/-! ## Items -/

namespace ItemContent

/-- A text by itself? -/
def IsText : ItemContent → Prop
  | text _ => True
  | _ => False

/-- A key with a member? -/
def IsPair : ItemContent → Prop
  | pair _ _ => True
  | _ => False

instance : DecidablePred IsText
  | text _ => isTrue trivial
  | list _ => isFalse id
  | pair _ _ => isFalse id

instance : DecidablePred IsPair
  | text _ => isFalse id
  | list _ => isFalse id
  | pair _ _ => isTrue trivial

/-- A plain text is a text by itself. -/
theorem ofRaw_plain (lists : Bool) {raw : Text} (h : ∀ c ∈ raw, isPlain c = true) :
    ofRaw lists raw = .ok (text (Percent.decode raw)) := by
  have hequals : .char '=' ∉ raw := not_mem_of_forall h rfl
  have hcomma : .char ',' ∉ raw := not_mem_of_forall h rfl
  rw [ofRaw, Text.cut_of_not_mem hequals]
  exact if_neg fun hc => hcomma hc.2

/-- So is an encoded text, and it is the text that was encoded. -/
theorem ofRaw_encode (lists : Bool) {s : Text} (hwell : s.IsWellFormed) :
    ofRaw lists (Percent.encode .unreserved s) = .ok (text s) := by
  rw [ofRaw_plain lists (Percent.isPlain_of_mem_encode s), Percent.decode_encode _ hwell]

/-- A listed text is no pair. -/
theorem ofRaw_listed (lists : Bool) {raw : Text} (h : ∀ c ∈ raw, isListed c = true) :
    ∃ content, ofRaw lists raw = .ok content ∧ ¬ content.IsPair := by
  have hequals : .char '=' ∉ raw := not_mem_of_forall h rfl
  rw [ofRaw, Text.cut_of_not_mem hequals]
  dsimp only
  split
  · exact ⟨_, rfl, id⟩
  · exact ⟨_, rfl, id⟩

/-- Where lists are not looked for, a listed text is a text by itself. -/
theorem ofRaw_false {raw : Text} (h : ∀ c ∈ raw, isListed c = true) :
    ofRaw false raw = .ok (text (Percent.decode raw)) := by
  have hequals : .char '=' ∉ raw := not_mem_of_forall h rfl
  rw [ofRaw, Text.cut_of_not_mem hequals]
  exact if_neg fun hc => Bool.false_ne_true hc.1

/-- A plain text before an equals sign, and a listed one after it, are a pair. -/
theorem ofRaw_pair (lists : Bool) {key member : Text} (hkey : ∀ c ∈ key, isPlain c = true)
    (hmember : ∀ c ∈ member, isListed c = true) :
    ofRaw lists (key ++ .char '=' :: member)
      = .ok (pair (Percent.decode key) (Value.ofRaw lists member)) := by
  rw [ofRaw, Text.cut_append (not_mem_of_forall hkey rfl)]
  exact if_neg (not_mem_of_forall hmember rfl)

/-- Two encoded texts or more, with commas between them, are a list of the texts. -/
theorem ofRaw_commaJoined {texts : List Text} (hlength : 2 ≤ texts.length)
    (hwell : ∀ s ∈ texts, s.IsWellFormed) :
    ofRaw true (commaJoined (texts.map (Percent.encode .unreserved))) = .ok (list texts) := by
  have hequals : .char '=' ∉ commaJoined (texts.map (Percent.encode .unreserved)) :=
    not_mem_of_forall (forall_mem_intercalate rfl (List.forall_mem_map.2 fun text _ =>
      Percent.isListed_of_mem_encode text)) rfl
  obtain ⟨hcomma, hsplit⟩ := splitOn_commaJoined hlength hwell
  rw [ofRaw, Text.cut_of_not_mem hequals]
  dsimp only
  rw [if_pos ⟨rfl, hcomma⟩, hsplit]

/-- If each text has a content, a row of texts has a row of contents. -/
theorem exists_row {R : Text → ItemContent → Prop} {texts : List Text}
    (h : ∀ text ∈ texts, ∃ content, R text content) :
    ∃ contents, List.Forall₂ R texts contents := by
  induction texts with
  | nil => exact ⟨[], .nil⟩
  | cons text texts ih =>
      obtain ⟨⟨content, hcontent⟩, htexts⟩ := List.forall_mem_cons.1 h
      obtain ⟨contents, hcontents⟩ := ih htexts
      exact ⟨content :: contents, .cons hcontent hcontents⟩

/-- Texts that can each be read with a property are read in a row with it. -/
theorem exists_forall₂ {lists : Bool} {q : ItemContent → Prop} {texts : List Text}
    (h : ∀ text ∈ texts, ∃ content, ofRaw lists text = .ok content ∧ q content) :
    ∃ contents, List.Forall₂ (fun raw content => ofRaw lists raw = .ok content)
      texts contents ∧ ∀ content ∈ contents, q content := by
  obtain ⟨contents, hall⟩ := exists_row h
  have hflip : List.Forall₂ (fun content raw => q content ∧ ofRaw lists raw = .ok content)
      contents texts := hall.flip.imp fun _ _ hread => ⟨hread.2, hread.1⟩
  exact ⟨contents, hall.imp fun _ _ hread => hread.1, ((List.forall₂_and_left _ _).1 hflip).1⟩

end ItemContent

namespace Item

/-- Texts that can be read one by one are read in a row. -/
theorem exists_ofRaws {lists : Bool} {raws : List Text} {contents : List ItemContent}
    (h : List.Forall₂ (fun raw content => ItemContent.ofRaw lists raw = .ok content) raws contents)
    (offset : Int) :
    ∃ items, ofRaws lists offset raws = .ok items ∧ items.map Item.content = contents := by
  induction h generalizing offset with
  | nil => exact ⟨[], rfl, rfl⟩
  | @cons raw content raws contents hraw _ ih =>
      obtain ⟨items, hitems, hcontents⟩ := ih (offset + raw.length + 1)
      refine ⟨⟨content, offset⟩ :: items, ?_, by rw [List.map_cons, hcontents]⟩
      rw [ofRaws, hraw, hitems]
      rfl

/-- The text before the items of a layout. -/
def lead : ItemLayout → Text
  | .commas => []
  | .slashes => ['/']

/-- A row of items is read as what its texts hold; but between commas a single empty text is
    nothing. -/
theorem exists_read {layout : ItemLayout} {row : List Text} {contents : List ItemContent}
    (hne : row ≠ []) (hsep : ∀ text ∈ row, layout.separator ∉ text)
    (h : List.Forall₂ (fun raw content => ItemContent.ofRaw layout.hasLists raw = .ok content)
      row contents) (offset : Int) :
    ∃ items, read layout (lead layout ++ List.intercalate [layout.separator] row) offset
        = .ok items ∧ (items.map Item.content = contents ∨
          layout = .commas ∧ items = [] ∧ List.intercalate [layout.separator] row = []) := by
  have hsplit := List.splitOn_intercalate layout.separator hsep hne
  generalize List.intercalate [layout.separator] row = body at hsplit ⊢
  cases layout with
  | commas =>
      cases body with
      | nil => exact ⟨[], rfl, Or.inr ⟨rfl, rfl, rfl⟩⟩
      | cons c body =>
          obtain ⟨items, hitems, hcontents⟩ := exists_ofRaws h offset
          refine ⟨items, ?_, Or.inl hcontents⟩
          show ofRaws false offset ((c :: body).splitOn (.char ',')) = _
          rw [show (c :: body).splitOn (.char ',') = row from hsplit]
          exact hitems
  | slashes =>
      obtain ⟨items, hitems, hcontents⟩ := exists_ofRaws h (offset + 1)
      refine ⟨items, ?_, Or.inl hcontents⟩
      show ofRaws true (offset + 1) (body.splitOn (.char '/')) = _
      rw [show body.splitOn (.char '/') = row from hsplit]
      exact hitems

/-- Between commas, a listed text is read as texts only. -/
theorem exists_read_listed {stretch : Text} (h : ∀ c ∈ stretch, isListed c = true) (offset : Int) :
    ∃ items, read .commas stretch offset = .ok items ∧ ∀ item ∈ items, item.content.IsText := by
  cases stretch with
  | nil => exact ⟨[], rfl, nofun⟩
  | cons c stretch =>
      have hpieces := forall_mem_splitOn (.char ',') h
      obtain ⟨contents, hread, htexts⟩ := ItemContent.exists_forall₂ (q := ItemContent.IsText)
        fun piece hp => ⟨_, ItemContent.ofRaw_false (hpieces piece hp), trivial⟩
      obtain ⟨items, hitems, rfl⟩ := exists_ofRaws hread offset
      exact ⟨items, hitems, List.forall_mem_map.1 htexts⟩

end Item

/-! ## Parameters -/

namespace Parameter

/-- A name and a value with an equals sign between them. -/
def written (entry : Text × Text) : Text := entry.1 ++ .char '=' :: entry.2

/-- A parameter is read as its name and its value. -/
theorem ofRaw_written {entry : Text × Text} (hname : .char '=' ∉ entry.1)
    (hvalue : .char '=' ∉ entry.2) (position : Int) :
    ofRaw (written entry) position = .ok ⟨Percent.decode entry.1, some entry.2, position⟩ := by
  rw [ofRaw, written, Text.cut_append hname]
  exact if_neg hvalue

/-- Parameters in a row are read one by one. -/
theorem exists_ofRaws {entries : List (Text × Text)}
    (h : ∀ e ∈ entries, .char '=' ∉ e.1 ∧ .char '=' ∉ e.2) (offset : Int) :
    ∃ ps, ofRaws offset (entries.map written) = .ok ps ∧
      ps.map (fun p => (p.name, p.raw)) = entries.map fun e => (Percent.decode e.1, some e.2) := by
  induction entries generalizing offset with
  | nil => exact ⟨[], rfl, rfl⟩
  | cons e entries ih =>
      obtain ⟨⟨hname, hvalue⟩, hentries⟩ := List.forall_mem_cons.1 h
      obtain ⟨ps, hps, hmap⟩ := ih hentries (offset + (written e).length + 1)
      refine ⟨⟨Percent.decode e.1, some e.2, offset⟩ :: ps, ?_, by
        rw [List.map_cons, List.map_cons, hmap]⟩
      rw [List.map_cons, ofRaws, ofRaw_written hname hvalue, hps]
      · rfl
      · exact List.append_ne_nil_of_right_ne_nil _ (List.cons_ne_nil _ _)

end Parameter

/-- A row of parameters is read as their names and values. -/
theorem Query.exists_read {entries : List (Text × Text)} (hne : entries ≠ [])
    (h : ∀ e ∈ entries, .char '=' ∉ e.1 ∧ .char '=' ∉ e.2)
    (hsep : ∀ e ∈ entries, .char '&' ∉ Parameter.written e) (offset : Int) :
    ∃ ps, read (List.intercalate [.char '&'] (entries.map Parameter.written)) offset = .ok ps ∧
      ps.map (fun p => (p.name, p.raw)) = entries.map fun e => (Percent.decode e.1, some e.2) := by
  rw [read, List.splitOn_intercalate ('&' : CodePoint) (List.forall_mem_map.2 hsep)
    fun hnil => hne (List.map_eq_nil_iff.1 hnil)]
  exact Parameter.exists_ofRaws h offset

end UriTemplate
