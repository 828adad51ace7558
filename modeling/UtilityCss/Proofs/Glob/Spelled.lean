import UtilityCss.Proofs.Glob.Literal

set_option autoImplicit false

namespace UtilityCss.Glob

def allBelow : List Char := ['/', '*', '*', '/', '*']

section Below

variable {lenient : Bool} {pattern text : String} {dir : List Char} {rest : Bytes}

theorem read_below (plain : ∀ c ∈ dir, IsPlain c) (opens : '\x7d' ∉ dir)
    (whole : pattern.toList = dir ++ allBelow) :
    Glob.read lenient pattern = .ok ⟨dir.map Token.literal ++ [.between, .star]⟩ := by
  have upTo : ∀ c ∈ dir ++ ['/'], IsPlain c :=
    List.forall_mem_append.2 ⟨plain, List.forall_mem_singleton.2 (by decide)⟩
  have open_ : '\x7d' ∉ dir ++ ['/'] :=
    List.not_mem_append opens (by decide)
  have cut : pattern.toList = (dir ++ ['/']) ++ ['*', '*', '/', '*'] := by simp [whole, allBelow]
  have enough : pattern.toList.length + 1 = 5 + (dir ++ ['/']).length := by
    rw [cut, List.length_append]
    exact Nat.add_comm _ 5
  have literals : (dir ++ ['/']).map Token.literal = dir.map Token.literal ++ [.literal '/'] := by simp
  have read : readTokens lenient (pattern.toList.length + 1) none pattern.toList Reading.start =
      .ok ⟨[], [.star :: .between :: (dir.map Token.literal).reverse]⟩ := by
    rw [enough, cut, Reading.start, readTokens_append upTo open_, List.getLast?_concat, literals,
      List.reverse_append, List.append_nil]
    rfl
  rw [Glob.read]
  simp only [read, List.reverse_cons, List.reverse_reverse, List.append_assoc, List.cons_append,
    List.nil_append]

theorem exists_name (rest : Bytes) : ∃ left ∈ rest :: tailsBehindSlash rest, slash ∉ left := by
  induction rest with
  | nil => exact ⟨[], List.mem_cons_self, List.not_mem_nil⟩
  | cons b rest ih =>
    obtain ⟨left, member, free⟩ := ih
    by_cases isSlash : b = slash
    · refine ⟨left, List.mem_cons_of_mem _ ?_, free⟩
      rwa [tailsBehindSlash, if_pos isSlash]
    · rcases List.mem_cons.1 member with rfl | later
      · exact ⟨b :: left, List.mem_cons_self,
          List.not_mem_cons_of_ne_of_not_mem (Ne.symm isSlash) free⟩
      · refine ⟨left, List.mem_cons_of_mem _ ?_, free⟩
        rwa [tailsBehindSlash, if_neg isSlash]

theorem nil_mem_below (rest : Bytes) : [] ∈ leftAfterAll [.between, .star] (slash :: rest) := by
  obtain ⟨left, member, free⟩ := exists_name rest
  have last : [] ∈ leftAfterAll [.star] left :=
    mem_leftAfterAll_cons.2 ⟨[], nil_mem_tailsInName free, List.mem_singleton_self []⟩
  exact mem_leftAfterAll_cons.2 ⟨left, by simpa [leftAfter] using member, last⟩

theorem exists_isMatch_below (lenient : Bool) (plain : ∀ c ∈ dir, IsPlain c) (opens : '\x7d' ∉ dir)
    (whole : pattern.toList = dir ++ allBelow) :
    ∃ glob, Glob.read lenient pattern = .ok glob ∧
      ∀ text, glob.isMatch text = true ↔ ∃ behind, text.toList = dir ++ '/' :: behind := by
  have read : Glob.read lenient pattern = .ok _ := read_below plain opens whole
  refine ⟨_, read, fun text => ⟨begins_of_isMatch read whole plain, fun ⟨behind, begins⟩ => ?_⟩⟩
  have specific : dir.map Token.literal ++ [.between, .star] ≠ [.leading] := by
    cases dir <;> simp
  refine (isMatch_iff specific).2 (mem_leftAfterAll_literals.2 ⟨(('/' :: behind).flatMap charBytes),
    by rw [begins, List.flatMap_append], ?_⟩)
  exact nil_mem_below (behind.flatMap charBytes)

end Below

/-- A character that neither a bracket nor a brace nor an escape can take for another one. -/
def IsUnbracketed (c : Char) : Prop := c ≠ '[' ∧ c ≠ '\x7b' ∧ c ≠ '\x7d' ∧ c ≠ '\\'

instance (c : Char) : Decidable (IsUnbracketed c) := inferInstanceAs (Decidable (_ ∧ _))

inductive Token.Spells : Token → List Char → Prop
  | literal (c : Char) : Spells (.literal c) [c]
  | anyOne : Spells .anyOne ['?']
  | star : Spells .star ['*']
  | between (inside : List Char) : Spells .between ('/' :: inside ++ ['/'])
  | trailing (inside : List Char) : Spells .trailing ('/' :: inside)

inductive SpellAll : List Token → List Char → Prop
  | nil : SpellAll [] []
  | concat {branch : List Token} {text piece : List Char} {token : Token}
      (before : SpellAll branch text) (last : token.Spells piece) :
      SpellAll (token :: branch) (text ++ piece)

section Spells

variable {token : Token} {branch tokens : List Token} {text piece done : List Char} {rest left : Bytes}

theorem mem_tails (before after : Bytes) : after ∈ tails (before ++ after) := by
  induction before with
  | nil => cases after <;> exact List.mem_cons_self
  | cons b before ih => exact List.mem_cons_of_mem _ ih

theorem mem_tailsInName_self (rest : Bytes) : rest ∈ tailsInName rest := by
  cases rest <;> exact List.mem_cons_self

theorem Token.Spells.mem_leftAfter (spells : token.Spells piece) (rest : Bytes) :
    rest ∈ leftAfter token (piece.flatMap charBytes ++ rest) := by
  cases spells with
  | literal c =>
    rw [leftAfter, Option.mem_toList, List.isPrefixOf?_eq_some_iff_append_eq]
    simp
  | anyOne => exact List.mem_singleton_self rest
  | star => exact List.mem_cons_of_mem _ (mem_tailsInName_self rest)
  | between inside =>
    have bytes : ('/' :: inside ++ ['/']).flatMap charBytes ++ rest =
        slash :: (inside.flatMap charBytes ++ slash :: rest) := by
      simp [charBytes, slash]
      rfl
    rw [bytes, leftAfter]
    exact List.mem_cons_of_mem _ (mem_tailsBehindSlash _ rest)
  | trailing inside =>
    have bytes : ('/' :: inside).flatMap charBytes ++ rest =
        slash :: (inside.flatMap charBytes ++ rest) := rfl
    rw [bytes, leftAfter]
    exact mem_tails _ rest

theorem SpellAll.mem_leftAfterAll (spells : SpellAll branch text)
    (member : left ∈ leftAfterAll tokens rest) :
    left ∈ leftAfterAll (branch.reverse ++ tokens) (text.flatMap charBytes ++ rest) := by
  induction spells generalizing tokens rest with
  | nil => exact member
  | concat before last ih =>
    rw [List.reverse_cons, List.append_assoc, List.flatMap_append, List.append_assoc]
    exact ih (mem_leftAfterAll_cons.2 ⟨rest, last.mem_leftAfter rest, member⟩)

theorem SpellAll.push (spells : SpellAll branch done) (last : token.Spells piece)
    (same : text = done ++ piece) : SpellAll (token :: branch) text := same ▸ .concat spells last

theorem SpellAll.ne_nil (spells : SpellAll branch text) (spoken : text ≠ []) : branch ≠ [] := by
  rintro rfl
  cases spells
  exact spoken rfl

theorem SpellAll.ne_leading (spells : SpellAll branch text) : branch ≠ [.leading] := by
  rintro rfl
  cases spells with
  | concat before last => cases last

def OnSlash (previous : Option Char) (branch : List Token) : Prop :=
  previous = some '/' → ∃ before, branch = .literal '/' :: before ∨ branch = .between :: before

-- The last token spells a slash and what it has taken along, and another one can take its place.
theorem SpellAll.exists_slash (spells : SpellAll branch done)
    (behind : OnSlash (some '/') branch) :
    ∃ text inside before, done = text ++ '/' :: inside ∧ SpellAll before text ∧
      ∀ token, Reading.replaceSlash ⟨[], [branch]⟩ token = ⟨[], [token :: before]⟩ := by
  obtain ⟨before, rfl | rfl⟩ := behind rfl
  · cases spells with
    | concat first spelled =>
      cases spelled with
      | literal => exact ⟨_, [], before, rfl, first, fun token => rfl⟩
  · cases spells with
    | concat first spelled =>
      cases spelled with
      | between inside => exact ⟨_, inside ++ ['/'], before, rfl, first, fun token => rfl⟩

-- Two stars that do not fill the place between slashes are two stars.
theorem twoStars_apart {previous : Option Char} {rest : List Char} (nonempty : branch ≠ [])
    (apart : previous = some '/' → ∃ c after, rest = c :: after ∧ c ≠ '/') :
    Reading.twoStars ⟨[], [branch]⟩ previous rest =
      .ok (⟨[], [.star :: .star :: branch]⟩, rest) := by
  obtain ⟨last, before, rfl⟩ := List.exists_cons_of_ne_nil nonempty
  unfold Reading.twoStars
  by_cases onSlash : previous = some '/'
  · obtain ⟨c, after, rfl, other⟩ := apart onSlash
    simp [Reading.atStart, onSlash, Reading.pushAll, Reading.push, bind, Except.bind, pure,
      Except.pure, Except.map]
  · simp [Reading.atStart, onSlash, Reading.pushAll, Reading.push, bind, Except.bind, pure,
      Except.pure, Except.map]

theorem exists_twoStars {previous : Option Char} (rest : List Char) (spells : SpellAll branch done)
    (nonempty : branch ≠ []) (behind : OnSlash previous branch) :
    ∃ next taken after, Reading.twoStars ⟨[], [branch]⟩ previous rest = .ok (⟨[], [next]⟩, after) ∧
      rest = taken ++ after ∧ SpellAll next (done ++ '*' :: '*' :: taken) ∧
        OnSlash (some (if after.length < rest.length then '/' else '*')) next := by
  by_cases apart : previous = some '/' → ∃ c after, rest = c :: after ∧ c ≠ '/'
  · have stars : SpellAll (.star :: .star :: branch) (done ++ ['*', '*']) :=
      (spells.push .star rfl).push .star (by simp)
    exact ⟨.star :: .star :: branch, [], rest, twoStars_apart nonempty apart, rfl, stars,
      by simp [OnSlash]⟩
  · obtain ⟨onSlash, slash⟩ := Classical.not_imp.1 apart
    subst onSlash
    obtain ⟨last, start, rfl⟩ := List.exists_cons_of_ne_nil nonempty
    obtain ⟨text, inside, before, rfl, first, replaced⟩ := spells.exists_slash behind
    unfold Reading.twoStars
    cases rest with
    | nil =>
      exact ⟨.trailing :: before, [], [], by simp [Reading.atStart, replaced], rfl,
        first.push (.trailing (inside ++ ['*', '*'])) (by simp), by simp [OnSlash]⟩
    | cons c rest =>
      obtain rfl : c = '/' := by
        by_contra other
        exact slash ⟨c, rest, rfl, other⟩
      exact ⟨.between :: before, ['/'], rest, by simp [Reading.atStart, replaced], rfl,
        first.push (.between (inside ++ ['*', '*'])) (by simp), fun _ => ⟨before, .inr rfl⟩⟩

theorem exists_readTokens (lenient : Bool) {steps : Nat} {previous : Option Char}
    {text done : List Char} {branch : List Token} (clean : ∀ c ∈ text, IsUnbracketed c)
    (enough : text.length ≤ steps) (spells : SpellAll branch done) (nonempty : branch ≠ [])
    (behind : OnSlash previous branch) :
    ∃ whole, readTokens lenient steps previous text ⟨[], [branch]⟩ = .ok ⟨[], [whole]⟩ ∧
      SpellAll whole (done ++ text) ∧ whole ≠ [] := by
  induction steps generalizing previous text done branch with
  | zero =>
    obtain rfl := List.eq_nil_of_length_eq_zero (Nat.le_zero.1 enough)
    exact ⟨branch, rfl, by rwa [List.append_nil], nonempty⟩
  | succ steps ih =>
    cases text with
    | nil => exact ⟨branch, rfl, by rwa [List.append_nil], nonempty⟩
    | cons c rest =>
      obtain ⟨⟨bracket, brace, closing, escape⟩, others⟩ := List.forall_mem_cons.1 clean
      have less : rest.length ≤ steps := Nat.le_of_succ_le_succ enough
      -- A character that is read as one token.
      have single {token : Token} (last : token.Spells [c]) (slash : c = '/' → token = .literal '/') :
          ∃ whole, readTokens lenient steps (some c) rest ⟨[], [token :: branch]⟩ =
            .ok ⟨[], [whole]⟩ ∧ SpellAll whole (done ++ c :: rest) ∧ whole ≠ [] := by
        obtain ⟨whole, read, spelled, isWhole⟩ := ih others less (spells.push last rfl)
          (List.cons_ne_nil _ _) fun same =>
            ⟨branch, .inl (by rw [slash (Option.some.inj same)])⟩
        exact ⟨whole, read, by simpa using spelled, isWhole⟩
      unfold readTokens
      split_ifs with one star comma
      · subst one
        exact single .anyOne fun slash => absurd slash (by decide)
      · subst star
        split
        · next stars more =>
          obtain ⟨next, taken, after, read, rfl, spelled, behindStars⟩ :=
            exists_twoStars more spells nonempty behind
          have isNext : next ≠ [] := spelled.ne_nil (by simp)
          simp only [List.length_append, List.length_cons] at less
          obtain ⟨whole, found, rest, isWhole⟩ := ih
            (fun c member => others c (List.mem_cons_of_mem _ (List.mem_append_right _ member)))
            (by omega) spelled isNext behindStars
          refine ⟨whole, ?_, by simpa using rest, isWhole⟩
          rw [read]
          exact found
        · exact single .star fun slash => absurd slash (by decide)
      · exact absurd comma.2 (by simp)
      · exact single (.literal c) fun slash => by rw [slash]

theorem exists_isMatch_self {pattern : String} {rest : List Char} (lenient : Bool)
    (absolute : pattern.toList = '/' :: rest) (clean : ∀ c ∈ pattern.toList, IsUnbracketed c) :
    ∃ glob, Glob.read lenient pattern = .ok glob ∧ glob.isMatch pattern = true := by
  rw [absolute] at clean
  have first : SpellAll [.literal '/'] ['/'] := .concat .nil (.literal '/')
  obtain ⟨whole, read, spells, -⟩ := exists_readTokens lenient
    (fun c member => clean c (List.mem_cons_of_mem _ member)) (Nat.le_succ rest.length) first
    (List.cons_ne_nil _ _) (fun _ => ⟨[], .inl rfl⟩ : OnSlash (some '/') _)
  have found : readTokens lenient (pattern.toList.length + 1) none pattern.toList Reading.start =
      .ok ⟨[], [whole]⟩ := by
    rw [absolute, List.length_cons, Reading.start, readTokens_cons (by decide) (by decide)]
    exact read
  refine ⟨⟨whole.reverse⟩, by simp only [Glob.read, found], ?_⟩
  have specific : whole.reverse ≠ [.leading] := fun leads =>
    spells.ne_leading (by simpa using congrArg List.reverse leads)
  have nothing : [] ∈ leftAfterAll [] [] := List.mem_singleton_self []
  refine (isMatch_iff specific).2 ?_
  rw [absolute]
  simpa using spells.mem_leftAfterAll nothing

end Spells

end UtilityCss.Glob
