import UriTemplate.Template.Basic

/-! # Nodes — the parse tree of a template text

    A template text is a sequence of nodes: runs of literal characters, one node
    for each longest run of a kind, and expressions between braces.
    `Node.scan` reads nodes as far as it can and returns what is left; it never
    fails.  Whether the sigil of an expression is one of the operators is not
    decided here: the reserved sigils are read as well. -/

namespace UriTemplate

/-- The kinds of characters that may stand outside expressions. -/
inductive LiteralKind where
  | ascii
  | encoded
  | ucschar
  | iprivate
deriving DecidableEq, Repr

/-- A piece of a template text; an expression knows where in the text it begins. -/
inductive Node where
  | literal (kind : LiteralKind) (text : Text)
  | expression (sigil : Option CodePoint) (specs : List VarSpec) (offset : Nat)
deriving DecidableEq, Repr

/-- Does the code point lie in one of the inclusive ranges? -/
def inRanges (ranges : List (Nat × Nat)) (c : CodePoint) : Bool :=
  ranges.any fun range => range.1 ≤ c.toNat && c.toNat ≤ range.2

namespace LiteralKind

/-- All kinds, in the order in which they are tried. -/
def all : List LiteralKind := [ascii, encoded, ucschar, iprivate]

/-- ASCII without controls, the space, and the characters `"%'<>\^` and the backquote,
    braces and the bar. -/
def asciiRanges : List (Nat × Nat) :=
  [(0x21, 0x21), (0x23, 0x24), (0x26, 0x26), (0x28, 0x3B), (0x3D, 0x3D), (0x3F, 0x5B),
   (0x5D, 0x5D), (0x5F, 0x5F), (0x61, 0x7A), (0x7E, 0x7E)]

/-- The characters that may stand for themselves in an internationalized identifier. -/
def ucscharRanges : List (Nat × Nat) :=
  [(0xA0, 0xD7FF), (0xF900, 0xFDCF), (0xFDF0, 0xFFEF), (0x10000, 0x1FFFD), (0x20000, 0x2FFFD),
   (0x30000, 0x3FFFD), (0x40000, 0x4FFFD), (0x50000, 0x5FFFD), (0x60000, 0x6FFFD),
   (0x70000, 0x7FFFD), (0x80000, 0x8FFFD), (0x90000, 0x9FFFD), (0xA0000, 0xAFFFD),
   (0xB0000, 0xBFFFD), (0xC0000, 0xCFFFD), (0xD0000, 0xDFFFD), (0xE1000, 0xEFFFD)]

/-- The private-use characters. -/
def iprivateRanges : List (Nat × Nat) :=
  [(0xE000, 0xF8FF), (0xF0000, 0xFFFFD), (0x100000, 0x10FFFD)]

/-- The longest run of triplets that `s` begins with, and the rest. -/
def triplets : Text → Text × Text
  | '%' :: h :: l :: s =>
      if Hex.isDigit h && Hex.isDigit l then
        ('%' :: h :: l :: (triplets s).1, (triplets s).2)
      else ([], '%' :: h :: l :: s)
  | s => ([], s)

/-- The longest run of a kind that `s` begins with, and the rest. -/
def run : LiteralKind → Text → Text × Text
  | ascii, s => (s.takeWhile (inRanges asciiRanges), s.dropWhile (inRanges asciiRanges))
  | encoded, s => triplets s
  | ucschar, s => (s.takeWhile (inRanges ucscharRanges), s.dropWhile (inRanges ucscharRanges))
  | iprivate, s => (s.takeWhile (inRanges iprivateRanges), s.dropWhile (inRanges iprivateRanges))

/-- Taking triplets loses nothing. -/
theorem triplets_append (s : Text) : (triplets s).1 ++ (triplets s).2 = s := by
  fun_induction triplets s with
  | case1 h l s hd ih => simp [ih]
  | case2 => rfl
  | case3 => rfl

/-- Taking a run loses nothing. -/
theorem run_append (kind : LiteralKind) (s : Text) : (kind.run s).1 ++ (kind.run s).2 = s := by
  cases kind with
  | encoded => exact triplets_append s
  | ascii | ucschar | iprivate => exact List.takeWhile_append_dropWhile

end LiteralKind

namespace Node

/-- The node as it stands in the text. -/
def toText : Node → Text
  | literal _ text => text
  | expression sigil specs _ =>
      .char '\x7b' :: sigil.toList ++
        List.intercalate [.char ','] (specs.map VarSpec.toText) ++ [.char '\x7d']

/-- The operators' sigils, and those set aside for later use. -/
def isSigil (c : CodePoint) : Bool :=
  c ∈ (['+', '#', '.', '/', ';', '?', '&', '=', ',', '!', '@', '|'] : Text)

/-- The sigil that the inside of an expression begins with, and the rest. -/
def cutSigil : Text → Option CodePoint × Text
  | [] => (none, [])
  | c :: s => if isSigil c then (some c, s) else (none, c :: s)

/-- The expression whose opening brace stands before `s`. -/
def expression? (offset : Nat) (s : Text) : Option (Node × Text) :=
  match s.cut '\x7d' with
  | (_, none) => none
  | (inside, some rest) =>
      let (sigil, list) := cutSigil inside
      ((list.splitOn (.char ',')).mapM VarSpec.ofText?).map fun specs =>
        (expression sigil specs offset, rest)

/-- The run of literal characters that `s` begins with. -/
def literal? (s : Text) : Option (Node × Text) :=
  LiteralKind.all.findSome? fun kind =>
    match kind.run s with
    | ([], _) => none
    | (text, rest) => some (literal kind text, rest)

/-- The node that `s` begins with, and the rest. -/
def next? (offset : Nat) : Text → Option (Node × Text)
  | [] => none
  | '\x7b' :: s => expression? offset s
  | s => literal? s

/-- An expression ends with its closing brace. -/
theorem length_lt_of_expression? {offset : Nat} {s rest : Text} {n : Node}
    (h : expression? offset s = some (n, rest)) : rest.length < s.length := by
  unfold expression? at h
  split at h
  · exact nomatch h
  · next inside after hcut =>
      obtain ⟨specs, -, he⟩ := Option.map_eq_some_iff.1 h
      obtain rfl : after = rest := congrArg Prod.snd he
      rw [Text.eq_of_cut hcut, List.length_append, List.length_cons]
      omega

/-- A run of literal characters is not empty. -/
theorem length_lt_of_literal? {s rest : Text} {n : Node}
    (h : literal? s = some (n, rest)) : rest.length < s.length := by
  obtain ⟨kind, -, hk⟩ := List.exists_of_findSome?_eq_some h
  have happ := kind.run_append s
  split at hk
  · exact nomatch hk
  · next text after hne hrun =>
      obtain rfl : after = rest := congrArg Prod.snd (Option.some.inj hk)
      have hpos : 0 < text.length := List.length_pos_iff.2 hne
      rw [hrun] at happ
      rw [← happ]
      simp only [List.length_append]
      omega

/-- A node takes some of the text. -/
theorem length_lt_of_next? {offset : Nat} {s rest : Text} {n : Node}
    (h : next? offset s = some (n, rest)) : rest.length < s.length := by
  unfold next? at h
  split at h
  · exact nomatch h
  · exact Nat.lt_succ_of_lt (length_lt_of_expression? h)
  · exact length_lt_of_literal? h

/-- All nodes that `s` begins with, and what cannot be read; `s` stands at `offset`. -/
def scan (offset : Nat) (s : Text) : List Node × Text :=
  match h : next? offset s with
  | none => ([], s)
  | some (n, rest) =>
      have := length_lt_of_next? h
      let (nodes, remaining) := scan (offset + n.toText.length) rest
      (n :: nodes, remaining)
termination_by s.length

/-- The nodes of a text, and the part from the first character that cannot be read. -/
def recognize (s : Text) : List Node × Text := scan 0 s

end Node

end UriTemplate
