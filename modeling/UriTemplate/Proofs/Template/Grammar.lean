import Mathlib
import UriTemplate.Template.Node

/-! # The grammar of templates — as languages

    Section 2 of RFC 6570 gives the templates as a language over characters, production
    by production.  The definitions of this file are those productions, with sums for
    alternatives, products for sequences and the Kleene star for repetitions; the only
    parameter is which sigils may stand after an opening brace.  They read no text:
    what is recognised is compared with them elsewhere.

    A template is a row of words, each a literal character, a triplet or an expression.
    No such word begins another one (`Grammar.isPrefixFree_word`), so a text has one
    row of words at most, and of two rows that begin the same text the longer goes on
    where the shorter ends (`IsPrefixFree.prefix_or_prefix`,
    `IsPrefixFree.prefix_of_stuck`). -/

namespace UriTemplate

open scoped Computability

/-! ## Languages in which no word begins another -/

/-- No word of the language is empty or begins another one. -/
structure IsPrefixFree (l : Language CodePoint) : Prop where
  ne_nil : ∀ w ∈ l, w ≠ []
  eq_of_append : ∀ v ∈ l, ∀ w ∈ l, ∀ rest more : Text, v ++ rest = w ++ more → v = w

namespace IsPrefixFree

variable {l : Language CodePoint}

/-- **ROWS OF WORDS**: of two rows that begin the same text, one begins the other. -/
theorem prefix_or_prefix (hl : IsPrefixFree l) {vs ws : List Text} (hv : ∀ v ∈ vs, v ∈ l)
    (hw : ∀ w ∈ ws, w ∈ l) {rest more : Text} (h : vs.flatten ++ rest = ws.flatten ++ more) :
    vs <+: ws ∨ ws <+: vs := by
  induction vs generalizing ws with
  | nil => exact Or.inl List.nil_prefix
  | cons v vs ih =>
      cases ws with
      | nil => exact Or.inr List.nil_prefix
      | cons w ws =>
          obtain ⟨hv, hvs⟩ := List.forall_mem_cons.1 hv
          obtain ⟨hw, hws⟩ := List.forall_mem_cons.1 hw
          simp only [List.flatten_cons, List.append_assoc] at h
          obtain rfl := hl.eq_of_append v hv w hw _ _ h
          rw [List.prefix_cons_inj, List.prefix_cons_inj]
          exact ih hvs hws (List.append_cancel_left h)

/-- What remains of a row of words behind another row is a row of words. -/
theorem exists_of_append_mem (hl : IsPrefixFree l) {m : Language CodePoint} (hm : m ≤ l)
    {s rest : Text} (hs : s ∈ l∗) (h : s ++ rest ∈ m∗) : s ∈ m∗ ∧ rest ∈ m∗ := by
  obtain ⟨vs, rfl, hvs⟩ := hs
  obtain ⟨ws, hwords, hws⟩ := h
  have hsame : vs.flatten ++ rest = ws.flatten ++ [] := by rw [hwords, List.append_nil]
  have hcompare := hl.prefix_or_prefix hvs (fun w hw => hm (hws w hw)) hsame
  have hprefix : vs <+: ws := by
    rcases hcompare with hvw | ⟨us, rfl⟩
    · exact hvw
    · -- the shorter row is already the whole text
      rw [List.flatten_append, List.append_assoc, List.append_right_eq_self,
        List.append_eq_nil_iff] at hwords
      obtain rfl : us = [] := by
        cases us with
        | nil => rfl
        | cons u us =>
            have hu : u ∈ l := hvs u (List.mem_append_right ws List.mem_cons_self)
            exact absurd (List.append_eq_nil_iff.1 hwords.1).1 (hl.ne_nil u hu)
      rw [List.append_nil]
  obtain ⟨us, rfl⟩ := hprefix
  rw [List.flatten_append, List.append_cancel_left_eq] at hwords
  exact ⟨Language.join_mem_kstar fun v hv => hws v (List.mem_append_left us hv),
    hwords ▸ Language.join_mem_kstar fun u hu => hws u (List.mem_append_right vs hu)⟩

/-- **LONGEST**: words are read as far as they go, when none begins what remains. -/
theorem prefix_of_stuck (hl : IsPrefixFree l) {consumed remaining : Text} (hc : consumed ∈ l∗)
    (hstuck : ∀ w ∈ l, ¬ w <+: remaining) {s : Text} (hs : s ∈ l∗)
    (h : s <+: consumed ++ remaining) : s <+: consumed := by
  obtain ⟨vs, rfl, hvs⟩ := hs
  obtain ⟨ws, rfl, hws⟩ := hc
  obtain ⟨rest, h⟩ := h
  rcases hl.prefix_or_prefix hvs hws h with ⟨us, rfl⟩ | ⟨us, rfl⟩
  · rw [List.flatten_append]
    exact List.prefix_append _ _
  · cases us with
    | nil => rw [List.append_nil]
    | cons u us =>
        -- the next word would stand where none does
        rw [List.flatten_append, List.append_assoc, List.append_cancel_left_eq,
          List.flatten_cons, List.append_assoc] at h
        exact absurd ⟨_, h⟩ (hstuck u (hvs u (List.mem_append_right ws List.mem_cons_self)))

end IsPrefixFree

/-! ## Productions -/

namespace Grammar

/-- A row of words goes on with a word in front. -/
theorem cons_mem_kstar {l : Language CodePoint} {w s : Text} (hw : w ∈ l) (hs : s ∈ l∗) :
    w ++ s ∈ l∗ :=
  mul_kstar_le_kstar (a := l) (Language.append_mem_mul hw hs)

/-- Two rows of words are one. -/
theorem append_mem_kstar {l : Language CodePoint} {s t : Text} (hs : s ∈ l∗) (ht : t ∈ l∗) :
    s ++ t ∈ l∗ := by
  rw [← kstar_mul_kstar l]
  exact Language.append_mem_mul hs ht

/-- A character with a code point between two others, both included. -/
def range (low high : Nat) : Language CodePoint :=
  {s | ∃ c : CodePoint, s = [c] ∧ low ≤ c.toNat ∧ c.toNat ≤ high}

/-- One of some characters. -/
def oneOf (cs : List CodePoint) : Language CodePoint := {s | ∃ c ∈ cs, s = [c]}

def alpha : Language CodePoint := range 0x41 0x5A + range 0x61 0x7A

def digit : Language CodePoint := range 0x30 0x39

def hexDigit : Language CodePoint := digit + range 0x41 0x46 + range 0x61 0x66

def pctEncoded : Language CodePoint := oneOf ['%'] * hexDigit * hexDigit

/-- The literal characters of ASCII. -/
def ascii : Language CodePoint :=
  range 0x21 0x21 + range 0x23 0x24 + range 0x26 0x26 + range 0x28 0x3B + range 0x3D 0x3D
    + range 0x3F 0x5B + range 0x5D 0x5D + range 0x5F 0x5F + range 0x61 0x7A + range 0x7E 0x7E

def ucschar : Language CodePoint :=
  range 0xA0 0xD7FF + range 0xF900 0xFDCF + range 0xFDF0 0xFFEF
    + range 0x10000 0x1FFFD + range 0x20000 0x2FFFD + range 0x30000 0x3FFFD
    + range 0x40000 0x4FFFD + range 0x50000 0x5FFFD + range 0x60000 0x6FFFD
    + range 0x70000 0x7FFFD + range 0x80000 0x8FFFD + range 0x90000 0x9FFFD
    + range 0xA0000 0xAFFFD + range 0xB0000 0xBFFFD + range 0xC0000 0xCFFFD
    + range 0xD0000 0xDFFFD + range 0xE1000 0xEFFFD

def iprivate : Language CodePoint :=
  range 0xE000 0xF8FF + range 0xF0000 0xFFFFD + range 0x100000 0x10FFFD

/-- What a literal of each kind is made of. -/
def ofKind : LiteralKind → Language CodePoint
  | .ascii => ascii
  | .encoded => pctEncoded
  | .ucschar => ucschar
  | .iprivate => iprivate

def literal : Language CodePoint := ascii + ucschar + iprivate + pctEncoded

def varchar : Language CodePoint := alpha + digit + oneOf ['_'] + pctEncoded

/-- A name, with single dots inside. -/
def varname : Language CodePoint := varchar * ((1 + oneOf ['.']) * varchar)∗

/-- A length of one to four digits, without leading zeros. -/
def maxLength : Language CodePoint := range 0x31 0x39 * (1 + digit) * (1 + digit) * (1 + digit)

def modifier : Language CodePoint := oneOf ['*'] + oneOf [':'] * maxLength

def varspec : Language CodePoint := varname * (1 + modifier)

def variableList : Language CodePoint := varspec * (oneOf [','] * varspec)∗

/-- An expression, perhaps with one of some sigils. -/
def expression (sigils : List CodePoint) : Language CodePoint :=
  oneOf ['\x7b'] * (1 + oneOf sigils) * variableList * oneOf ['\x7d']

/-- What templates are made of. -/
def word (sigils : List CodePoint) : Language CodePoint := literal + expression sigils

def template (sigils : List CodePoint) : Language CodePoint := (word sigils)∗

/-- The sigils of operators. -/
def operatorSigils : List CodePoint := ['+', '#', '.', '/', ';', '?', '&']

/-- The sigils that are set aside. -/
def reservedSigils : List CodePoint := ['=', ',', '!', '@', '|']

/-- All of them. -/
def sigils : List CodePoint := operatorSigils ++ reservedSigils

end Grammar

end UriTemplate
