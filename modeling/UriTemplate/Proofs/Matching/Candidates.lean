import Mathlib.Data.List.Basic
import UriTemplate.Match.Search

/-! # Candidates — the possible ends of a stretch

    `Pattern.candidates` is the list of the ends that are tried, in order.  Before a
    literal they are the places within reach where the literal stands, or the whole
    reach if there is none; elsewhere the whole reach is the only one.

    * `eq_of_mem_candidates` — a candidate lies within reach and knows the URL after
      it;
    * `mem_candidates_of_isPrefix` — no place of the literal is left out;
    * `pairwise_candidates` — the ends come from the right;
    * `fst_cuts_eq` — so the end of the longest stretch is the first, where it is one. -/

namespace UriTemplate

namespace Cut

/-- The current place, if the text stands there. -/
def here (next : Text) (length : Nat) (url : Text) : List Cut :=
  if next.isPrefixOf url then [⟨length, url⟩] else []

theorem mem_here {next : Text} {length : Nat} {url : Text} {cut : Cut} :
    cut ∈ here next length url ↔ next <+: url ∧ cut = ⟨length, url⟩ := by
  rw [here, ← List.isPrefixOf_iff_prefix]
  split
  · next h => simp [h]
  · next h => simp [h]

theorem pairwise_here (next : Text) (length : Nat) (url : Text) :
    (here next length url).Pairwise (·.length < ·.length) := by
  rw [here]
  split
  · exact List.pairwise_singleton _ _
  · exact List.Pairwise.nil

theorem places_nil (next : Text) (length n : Nat) :
    places next length n [] = here next length [] := by
  cases n with
  | zero => rfl
  | succ n => exact List.append_nil _

theorem places_zero (next : Text) (length : Nat) (url : Text) :
    places next length 0 url = here next length url := by
  rw [places]
  rfl

theorem places_succ (next : Text) (length n : Nat) (c : CodePoint) (url : Text) :
    places next length (n + 1) (c :: url)
      = here next length (c :: url) ++ places next (length + 1) n url := rfl

/-- The places are those among the next `n` code points where the text stands. -/
theorem mem_places {next : Text} {length n : Nat} {url : Text} {cut : Cut} :
    cut ∈ places next length n url ↔
      ∃ j, j ≤ n ∧ j ≤ url.length ∧ next <+: url.drop j ∧ cut = ⟨length + j, url.drop j⟩ := by
  induction n generalizing length url with
  | zero =>
      rw [places_zero, mem_here]
      constructor
      · rintro ⟨hnext, rfl⟩
        exact ⟨0, Nat.le_refl 0, Nat.zero_le _, hnext, rfl⟩
      · rintro ⟨j, hj, -, hnext, rfl⟩
        obtain rfl : j = 0 := Nat.le_zero.1 hj
        exact ⟨hnext, rfl⟩
  | succ n ih =>
      cases url with
      | nil =>
          rw [places_nil, mem_here]
          constructor
          · rintro ⟨hnext, rfl⟩
            exact ⟨0, Nat.zero_le _, Nat.zero_le _, hnext, rfl⟩
          · rintro ⟨j, -, hj, hnext, rfl⟩
            obtain rfl : j = 0 := Nat.le_zero.1 hj
            exact ⟨hnext, rfl⟩
      | cons c url =>
          rw [places_succ, List.mem_append, mem_here, ih]
          constructor
          · rintro (⟨hnext, rfl⟩ | ⟨j, hj, hlen, hnext, rfl⟩)
            · exact ⟨0, Nat.zero_le _, Nat.zero_le _, hnext, rfl⟩
            · refine ⟨j + 1, Nat.succ_le_succ hj, Nat.succ_le_succ hlen, hnext, ?_⟩
              rw [List.drop_succ_cons, Nat.add_assoc, Nat.add_comm 1 j]
          · rintro ⟨j, hj, hlen, hnext, rfl⟩
            match j, hj, hlen, hnext with
            | 0, _, _, hnext => exact Or.inl ⟨hnext, rfl⟩
            | j + 1, hj, hlen, hnext =>
                refine Or.inr ⟨j, Nat.le_of_succ_le_succ hj, Nat.le_of_succ_le_succ hlen, hnext, ?_⟩
                rw [List.drop_succ_cons, Nat.add_assoc, Nat.add_comm 1 j]

/-- The places come from the left. -/
theorem pairwise_places (next : Text) (length n : Nat) (url : Text) :
    (places next length n url).Pairwise (·.length < ·.length) := by
  induction n generalizing length url with
  | zero =>
      rw [places_zero]
      exact pairwise_here next length url
  | succ n ih =>
      cases url with
      | nil =>
          rw [places_nil]
          exact pairwise_here next length []
      | cons c url =>
          rw [places_succ, List.pairwise_append]
          refine ⟨pairwise_here next length _, ih (length + 1) url, fun cut hcut other hother => ?_⟩
          obtain ⟨-, rfl⟩ := mem_here.1 hcut
          obtain ⟨j, -, -, -, rfl⟩ := mem_places.1 hother
          show length < length + 1 + j
          omega

end Cut

namespace Pattern

/-- A pattern does not reach beyond the end. -/
theorem reach_le_length (p : Pattern) (url : Text) : p.reach url ≤ url.length := by
  match url with
  | [] => exact Nat.le_refl 0
  | c :: url =>
      rw [reach]
      split
      · exact Nat.succ_le_succ (List.takeWhile_prefix _).length_le
      · exact Nat.zero_le _

/-- The ends that are tried, in order. -/
def candidates (p : Pattern) (later : List Part) (url : Text) : List Cut :=
  (p.cuts later url).1 :: (p.cuts later url).2

/-- The end of the longest stretch. -/
def farthest (p : Pattern) (url : Text) : Cut := ⟨p.reach url, url.drop (p.reach url)⟩

/-- Where no literal follows, only the longest stretch is tried. -/
theorem candidates_of_not_literal (p : Pattern) {later : List Part} (url : Text)
    (h : ∀ next rest, later ≠ .literal next :: rest) :
    p.candidates later url = [p.farthest url] := by
  unfold candidates cuts
  split
  · next next rest => exact absurd rfl (h next rest)
  · rfl

/-- Before a literal its places within reach are tried from the right; without one, only the
    longest stretch. -/
theorem candidates_of_literal (p : Pattern) (next : Text) (later : List Part) (url : Text) :
    p.candidates (.literal next :: later) url
      = if Cut.places next 0 (p.reach url) url = [] then [p.farthest url]
        else (Cut.places next 0 (p.reach url) url).reverse := by
  unfold candidates cuts
  dsimp only
  split
  · next hrev => rw [if_pos (List.reverse_eq_nil_iff.1 hrev)]; rfl
  · next cut others hrev =>
      rw [if_neg, hrev]
      intro hnil
      rw [hnil] at hrev
      exact nomatch hrev

/-- What is known of each candidate: it lies within reach, and the URL goes on after it. -/
theorem eq_of_mem_candidates {p : Pattern} {later : List Part} {url : Text} {cut : Cut}
    (h : cut ∈ p.candidates later url) :
    cut.length ≤ p.reach url ∧ cut.rest = url.drop cut.length := by
  have hfar : cut ∈ [p.farthest url] →
      cut.length ≤ p.reach url ∧ cut.rest = url.drop cut.length := by
    intro hc
    obtain rfl := List.mem_singleton.1 hc
    exact ⟨Nat.le_refl _, rfl⟩
  by_cases hlit : ∃ next rest, later = .literal next :: rest
  · obtain ⟨next, rest, rfl⟩ := hlit
    rw [candidates_of_literal] at h
    split at h
    · exact hfar h
    · obtain ⟨j, hj, -, -, rfl⟩ := Cut.mem_places.1 (List.mem_reverse.1 h)
      show 0 + j ≤ _ ∧ url.drop j = url.drop (0 + j)
      rw [Nat.zero_add]
      exact ⟨hj, rfl⟩
  · rw [candidates_of_not_literal p url fun next rest he => hlit ⟨next, rest, he⟩] at h
    exact hfar h

/-- The candidates come from the right. -/
theorem pairwise_candidates (p : Pattern) (later : List Part) (url : Text) :
    (p.candidates later url).Pairwise (fun a b => b.length < a.length) := by
  by_cases hlit : ∃ next rest, later = .literal next :: rest
  · obtain ⟨next, rest, rfl⟩ := hlit
    rw [candidates_of_literal]
    split
    · exact List.pairwise_singleton _ _
    · exact List.pairwise_reverse.2 (Cut.pairwise_places next 0 _ url)
  · rw [candidates_of_not_literal p url fun next rest he => hlit ⟨next, rest, he⟩]
    exact List.pairwise_singleton _ _

/-- Before a literal every place of it within reach is a candidate. -/
theorem mem_candidates_of_isPrefix {p : Pattern} {next : Text} {later : List Part} {url : Text}
    {j : Nat} (hj : j ≤ p.reach url) (hnext : next <+: url.drop j) :
    (⟨j, url.drop j⟩ : Cut) ∈ p.candidates (.literal next :: later) url := by
  have hmem : (⟨j, url.drop j⟩ : Cut) ∈ Cut.places next 0 (p.reach url) url :=
    Cut.mem_places.2 ⟨j, hj, Nat.le_trans hj (p.reach_le_length url), hnext,
      by rw [Nat.zero_add]⟩
  rw [candidates_of_literal, if_neg (List.ne_nil_of_mem hmem)]
  exact List.mem_reverse.2 hmem

/-- The end of the longest stretch is tried first, if a literal that follows stands there. -/
theorem fst_cuts_eq {p : Pattern} {later : List Part} {url : Text}
    (h : ∀ next rest, later = .literal next :: rest → next <+: url.drop (p.reach url)) :
    (p.cuts later url).1 = p.farthest url := by
  have hmem : p.farthest url ∈ p.candidates later url := by
    by_cases hlit : ∃ next rest, later = .literal next :: rest
    · obtain ⟨next, rest, rfl⟩ := hlit
      exact mem_candidates_of_isPrefix (Nat.le_refl _) (h next rest rfl)
    · rw [candidates_of_not_literal p url fun next rest he => hlit ⟨next, rest, he⟩]
      exact List.mem_singleton_self _
  rcases List.mem_cons.1 hmem with heq | hother
  · exact heq.symm
  · -- no end lies to the right of the longest stretch
    have hlt := List.rel_of_pairwise_cons (p.pairwise_candidates later url) hother
    have hle : (p.cuts later url).1.length ≤ p.reach url :=
      (eq_of_mem_candidates (show _ ∈ p.candidates later url from List.mem_cons_self)).1
    exact absurd hle (Nat.not_le.2 hlt)

end Pattern

end UriTemplate
