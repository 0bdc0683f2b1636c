import UriTemplate.Proofs.Matching.Errors

/-! # Refusals — a pair refused at once, or left over

    A variable that is not exploded has no use for a pair.  It leaves the pair for an
    exploded variable further on, if there is one.  If there is none, expressions differ:
    where pairs are refused the variable refuses it at once, elsewhere it leaves it all
    the same.  But then no later variable can take the pair either:

    * `VarSpec.take_refusing` — the two ways differ at such a pair only;
    * `VarSpec.takeAll_of_isPair` — which is still there after all variables, and refused as extra;
    * **`Item.allocate_refusing`** — so both ways accept the same, bind the same and fail at the
      same position. -/

namespace UriTemplate

namespace VarSpec

variable {v : VarSpec} {specs later : List VarSpec} {item : Item}

/-- **STEP**: only a pair that no variable can take makes a difference to refuse. -/
theorem take_refusing (v : VarSpec) (later : List VarSpec) (items : List Item) :
    v.take true later items = v.take false later items ∨
    ((∀ w ∈ v :: later, w.explode = false) ∧ ∃ item more, items = item :: more ∧
      item.content.IsPair ∧
      v.take true later items = .error ⟨.unexpectedPair v.name, some item.position⟩ ∧
      v.take false later items = .ok (none, items)) := by
  cases items with
  | nil => exact Or.inl rfl
  | cons item more =>
      cases hexplode : v.explode with
      | true =>
          left
          rw [take, take, if_pos hexplode, if_pos hexplode]
      | false =>
          rw [take, take, hexplode, if_neg Bool.false_ne_true, if_neg Bool.false_ne_true]
          obtain ⟨content, position⟩ := item
          cases content with
          | text s => exact Or.inl rfl
          | list texts => exact Or.inl rfl
          | pair key member =>
              by_cases hlater : later.any (·.explode) = true
              · -- it is left for the exploded one in either way
                left
                rw [Item.takeSingle, Item.takeSingle]
                simp only [hlater, Bool.not_true, Bool.and_false]
              · right
                rw [Bool.not_eq_true] at hlater
                constructor
                · refine List.forall_mem_cons.2 ⟨hexplode, fun w hw => ?_⟩
                  exact Bool.eq_false_iff.2 (List.any_eq_false.1 hlater w hw)
                · refine ⟨_, more, rfl, trivial, ?_, rfl⟩
                  rw [Item.takeSingle]
                  simp only [hlater, Bool.not_false, Bool.and_true, if_true]

/-- Where nothing is exploded, a pair in front is left by everyone, and refused as extra. -/
theorem takeAll_of_isPair (hspecs : ∀ v ∈ specs, v.explode = false) (hpair : item.content.IsPair)
    (more : List Item) :
    takeAll false specs (item :: more)
      = .error ⟨.extraItems (more.length + 1), some item.position⟩ := by
  induction specs with
  | nil => rfl
  | cons v later ih =>
      obtain ⟨hv, hlater⟩ := List.forall_mem_cons.1 hspecs
      have htake : v.take false later (item :: more) = .ok (none, item :: more) := by
        obtain ⟨content, position⟩ := item
        rw [take, hv, if_neg Bool.false_ne_true]
        cases content with
        | text s => exact hpair.elim
        | list texts => exact hpair.elim
        | pair key member => rfl
      rw [takeAll, htake]
      dsimp only
      rw [ih hlater]
      rfl

/-- **RUN**: refusing pairs at once changes an outcome only if a variable meets a pair that nobody
    can take, and then only what is told of it. -/
theorem takeAll_refusing (specs : List VarSpec) (items : List Item) :
    takeAll true specs items = takeAll false specs items ∨
    ∃ v ∈ specs, ∃ item more, v.explode = false ∧ item.content.IsPair ∧ item :: more <:+ items ∧
      takeAll true specs items = .error ⟨.unexpectedPair v.name, some item.position⟩ ∧
      takeAll false specs items
        = .error ⟨.extraItems (more.length + 1), some item.position⟩ := by
  induction specs generalizing items with
  | nil =>
      left
      cases items <;> rfl
  | cons v later ih =>
      rw [takeAll, takeAll]
      rcases take_refusing v later items with
        htake | ⟨hspecs, item, more, rfl, hpair, hrefused, hleft⟩
      · -- both ways go on from the same items
        rw [htake]
        cases hlenient : v.take false later items with
        | error e => exact Or.inl rfl
        | ok taken =>
            obtain ⟨value, rest⟩ := taken
            dsimp only
            rcases ih rest with hrest | ⟨w, hw, item, more, hexplode, hpair, hmore, hstrict, hextra⟩
            · exact Or.inl (by rw [hrest])
            · right
              refine ⟨w, List.mem_cons_of_mem v hw, item, more, hexplode, hpair, ?_, ?_, ?_⟩
              · exact hmore.trans (take_suffix hlenient)
              · rw [hstrict]
                rfl
              · rw [hextra]
                rfl
      · -- one way ends here, and the other carries the pair past everyone
        right
        obtain ⟨hv, hlater⟩ := List.forall_mem_cons.1 hspecs
        refine ⟨v, List.mem_cons_self, item, more, hv, hpair, List.suffix_refl _, ?_, ?_⟩
        · rw [hrefused]
        · rw [hleft]
          dsimp only
          rw [takeAll_of_isPair hlater hpair]
          rfl

end VarSpec

namespace Item

/-- **REFUSING PAIRS** never changes what is accepted, nor what is bound, nor where it fails: at
    most a pair that is extra is told as one that a variable cannot take. -/
theorem allocate_refusing (specs : List VarSpec) (items : List Item) :
    allocate true specs items = allocate false specs items ∨
    ∃ v ∈ specs, ∃ item more, v.explode = false ∧ item.content.IsPair ∧ item :: more <:+ items ∧
      allocate true specs items = .error ⟨.unexpectedPair v.name, some item.position⟩ ∧
      allocate false specs items
        = .error ⟨.extraItems (more.length + 1), some item.position⟩ := by
  rcases VarSpec.takeAll_refusing specs items with
    heq | ⟨v, hv, item, more, hexplode, hpair, hmore, hstrict, hextra⟩
  · left
    rw [allocate, allocate, heq]
  · right
    refine ⟨v, hv, item, more, hexplode, hpair, hmore, ?_, ?_⟩
    · rw [allocate, hstrict]
      rfl
    · rw [allocate, hextra]
      rfl

/-- A pair that is left by two variables of one name. -/
example : let a : VarSpec := ⟨"a".toText, false, none⟩
    let items : List Item := [⟨.text "x".toText, 0⟩, ⟨.pair "k".toText (.ofText "v".toText), 2⟩]
    [true, false].map (allocate · [⟨"b".toText, true, none⟩, a, a] items)
      = [.error ⟨.unexpectedPair "a".toText, some 2⟩, .error ⟨.extraItems 1, some 2⟩] := rfl

end Item

end UriTemplate
