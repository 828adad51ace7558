import Mathlib.Data.List.Basic
import Mathlib.Tactic.SplitIfs
import UtilityCss.Glob.Matching
import UtilityCss.Proofs.Result

set_option autoImplicit false

namespace UtilityCss.Glob

def IsPlain (c : Char) : Prop := c ≠ '?' ∧ c ≠ '*' ∧ c ≠ '[' ∧ c ≠ '\x7b' ∧ c ≠ '\\'

instance (c : Char) : Decidable (IsPlain c) := inferInstanceAs (Decidable (_ ∧ _))

section Bytes

variable {c d : Char} {text other : List Char} {rest more : Bytes}

theorem toUTF8_eq (text : String) : text.toUTF8.data.toList = text.toList.flatMap charBytes := by
  obtain ⟨chars, rfl⟩ : ∃ chars, text = String.ofList chars := ⟨text.toList, by simp⟩
  simp only [String.toUTF8_eq_toByteArray, String.toByteArray_ofList, List.utf8Encode,
    List.data_toByteArray, String.toList_ofList]
  rfl

-- The bytes of a character tell where they end.
theorem eq_of_charBytes (same : charBytes c ++ rest = charBytes d ++ more) : c = d ∧ rest = more := by
  have decoded : some c = some d := by
    rw [← ByteArray.utf8DecodeChar?_utf8EncodeChar_append (b := rest.toByteArray) (c := c),
      ← ByteArray.utf8DecodeChar?_utf8EncodeChar_append (b := more.toByteArray) (c := d)]
    simp only [← List.toByteArray_append]
    exact congrArg (fun bytes : Bytes => bytes.toByteArray.utf8DecodeChar? 0) same
  obtain rfl := Option.some.inj decoded
  exact ⟨rfl, List.append_cancel_left same⟩

theorem append_of_bytes (same : other.flatMap charBytes = text.flatMap charBytes ++ rest) :
    ∃ behind, other = text ++ behind ∧ rest = behind.flatMap charBytes := by
  induction text generalizing other with
  | nil => exact ⟨other, rfl, by simpa using same.symm⟩
  | cons c text ih =>
    cases other with
    | nil => simp [charBytes, String.utf8EncodeChar_ne_nil] at same
    | cons d other =>
      rw [List.flatMap_cons, List.flatMap_cons, List.append_assoc] at same
      obtain ⟨rfl, later⟩ := eq_of_charBytes same
      obtain ⟨behind, rfl, known⟩ := ih later
      exact ⟨behind, rfl, known⟩

end Bytes

inductive Token.TakesSlash : Token → Prop
  | literal : TakesSlash (.literal '/')
  | trailing : TakesSlash .trailing
  | between : TakesSlash .between

section Matching

variable {text : Bytes} {tokens : List Token} {chars : List Char}

theorem mem_leftAfterAll_cons {token : Token} {left : Bytes} :
    left ∈ leftAfterAll (token :: tokens) text ↔
      ∃ rest ∈ leftAfter token text, left ∈ leftAfterAll tokens rest := by
  rw [leftAfterAll, List.mem_eraseDups, List.mem_flatMap]

theorem mem_leftAfterAll_literals {left : Bytes} :
    left ∈ leftAfterAll (chars.map Token.literal ++ tokens) text ↔
      ∃ rest, text = chars.flatMap charBytes ++ rest ∧ left ∈ leftAfterAll tokens rest := by
  induction chars generalizing text with
  | nil => simp
  | cons c chars ih =>
    rw [List.map_cons, List.cons_append, mem_leftAfterAll_cons]
    simp only [leftAfter, Option.mem_toList, List.isPrefixOf?_eq_some_iff_append_eq, ih,
      List.flatMap_cons, List.append_assoc]
    constructor
    · rintro ⟨next, rfl, rest, rfl, member⟩
      exact ⟨rest, rfl, member⟩
    · rintro ⟨rest, rfl, member⟩
      exact ⟨_, rfl, rest, rfl, member⟩

theorem mem_tailsBehindSlash (before after : Bytes) :
    after ∈ tailsBehindSlash (before ++ slash :: after) := by
  induction before with
  | nil => simp [tailsBehindSlash]
  | cons b rest ih =>
    rw [List.cons_append, tailsBehindSlash]
    split_ifs
    · exact List.mem_cons_of_mem _ ih
    · exact ih

theorem nil_mem_tailsInName (free : slash ∉ text) :
    [] ∈ tailsInName text := by
  induction text with
  | nil => simp [tailsInName]
  | cons b rest ih =>
    rw [List.mem_cons, not_or] at free
    rw [tailsInName, if_neg (Ne.symm free.1)]
    exact List.mem_cons_of_mem _ (ih free.2)

theorem slash_of_leftAfter {token : Token} {left : Bytes} (takes : token.TakesSlash)
    (member : left ∈ leftAfter token text) : ∃ rest, text = charBytes '/' ++ rest := by
  cases takes with
  | literal =>
    rw [leftAfter, Option.mem_toList, List.isPrefixOf?_eq_some_iff_append_eq] at member
    exact ⟨left, member.symm⟩
  | trailing =>
    cases text with
    | nil => simp [leftAfter] at member
    | cons b rest =>
      by_cases same : b = slash
      · exact ⟨rest, by rw [same]; rfl⟩
      · simp [leftAfter, same] at member
  | between =>
    cases text with
    | nil => simp [leftAfter] at member
    | cons b rest =>
      by_cases same : b = slash
      · exact ⟨rest, by rw [same]; rfl⟩
      · simp [leftAfter, same] at member

end Matching

def BeginsWith (dir : List Char) (branch : List Token) : Prop :=
  ∃ later token, token.TakesSlash ∧ branch = later ++ token :: (dir.map Token.literal).reverse

namespace Reading

structure Holds (dir : List Char) (r : Reading) : Prop where
  outermost : ∃ upper branch, r.branches = upper ++ [branch] ∧ BeginsWith dir branch
  inside : ∀ mark ∈ r.marks, 1 ≤ mark

variable {dir : List Char} {r after : Reading} {token : Token}

theorem Holds.push (holds : r.Holds dir) (pushed : r.push token = .ok after) : after.Holds dir := by
  obtain ⟨⟨upper, branch, branches, later, first, takes, rfl⟩, inside⟩ := holds
  unfold Reading.push at pushed
  cases upper with
  | nil =>
    simp only [branches, List.nil_append, Except.ok.injEq] at pushed
    subst pushed
    exact ⟨⟨[], _, rfl, token :: later, first, takes, rfl⟩, inside⟩
  | cons top upper =>
    simp only [branches, List.cons_append, Except.ok.injEq] at pushed
    subst pushed
    exact ⟨⟨(token :: top) :: upper, _, rfl, later, first, takes, rfl⟩, inside⟩

theorem replaceSlash_cases (r : Reading) (token : Token) :
    r.replaceSlash token = r ∨ ∃ last branch rest, r.branches = (last :: branch) :: rest ∧
      r.replaceSlash token = { r with branches := (token :: branch) :: rest } := by
  unfold Reading.replaceSlash
  split
  · exact .inl rfl
  · exact .inl rfl
  next last branch rest _ _ branches => exact .inr ⟨last, branch, rest, branches, rfl⟩
  · exact .inl rfl

theorem Holds.replaceSlash (holds : r.Holds dir) (takes : token.TakesSlash) :
    (r.replaceSlash token).Holds dir := by
  rcases replaceSlash_cases r token with same | ⟨last, branch, rest, branches, same⟩
  · rwa [same]
  · rw [same]
    obtain ⟨⟨upper, bottom, isBottom, later, first, took, rfl⟩, inside⟩ := holds
    rw [branches] at isBottom
    cases upper with
    | nil =>
      obtain ⟨whole, rfl⟩ := List.cons.inj isBottom
      -- The last token of the branch is the slash itself or one behind it.
      cases later with
      | nil =>
        obtain ⟨rfl, rfl⟩ := List.cons.inj whole
        exact ⟨⟨[], _, rfl, [], token, takes, rfl⟩, inside⟩
      | cons top later =>
        obtain ⟨rfl, rfl⟩ := List.cons.inj whole
        exact ⟨⟨[], _, rfl, token :: later, first, took, rfl⟩, inside⟩
    | cons top upper =>
      obtain ⟨rfl, rfl⟩ := List.cons.inj isBottom
      exact ⟨⟨(token :: branch) :: upper, _, rfl, later, first, took, rfl⟩, inside⟩

theorem Holds.openBrace (holds : r.Holds dir) : r.openBrace.Holds dir := by
  obtain ⟨⟨upper, branch, branches, begins⟩, inside⟩ := holds
  refine ⟨⟨[] :: upper, branch, by simp [Reading.openBrace, branches], begins⟩, ?_⟩
  simp [Reading.openBrace, branches]
  exact inside

theorem Holds.nextBranch (holds : r.Holds dir) : r.nextBranch.Holds dir := by
  obtain ⟨⟨upper, branch, branches, begins⟩, inside⟩ := holds
  exact ⟨⟨[] :: upper, branch, by simp [Reading.nextBranch, branches], begins⟩, inside⟩

theorem Holds.closeBrace (holds : r.Holds dir) (closed : r.closeBrace = .ok after) :
    after.Holds dir := by
  obtain ⟨⟨upper, branch, branches, begins⟩, inside⟩ := holds
  unfold Reading.closeBrace at closed
  rcases marks : r.marks with _ | ⟨mark, marks'⟩
  · simp [marks] at closed
  · rw [marks] at closed inside
    obtain ⟨positive, others⟩ := List.forall_mem_cons.1 inside
    refine Holds.push ⟨⟨upper.drop (r.branches.length - mark), branch, ?_, begins⟩, others⟩ closed
    have outer : r.branches.length - mark ≤ upper.length := by
      rw [branches, List.length_append, List.length_singleton]
      omega
    simp only [branches] at outer ⊢
    exact List.drop_append_of_le_length outer

theorem Holds.twoStars {previous : Option Char} {text rest : List Char} (holds : r.Holds dir)
    (read : r.twoStars previous text = .ok (after, rest)) : after.Holds dir := by
  have pushed {token : Token} {text : List Char}
      (found : (r.push token).map (fun r => (r, text)) = .ok (after, rest)) : after.Holds dir := by
    obtain ⟨first, isFirst, same⟩ := map_eq_ok.1 found
    exact (Prod.mk.inj same).1 ▸ holds.push isFirst
  have stars (found : (r.pushAll [.star, .star]).map (fun r => (r, text)) = .ok (after, rest)) :
      after.Holds dir := by
    obtain ⟨both, isBoth, same⟩ := map_eq_ok.1 found
    obtain ⟨first, isFirst, more⟩ := bind_eq_ok.1 isBoth
    obtain ⟨second, isSecond, last⟩ := bind_eq_ok.1 more
    obtain rfl : second = both := Except.ok.inj last
    exact (Prod.mk.inj same).1 ▸ (holds.push isFirst).push isSecond
  have replaced {token : Token} {text : List Char} (takes : token.TakesSlash)
      (found : (r.replaceSlash token, text) = (after, rest)) : after.Holds dir :=
    (Prod.mk.inj found).1 ▸ holds.replaceSlash takes
  unfold Reading.twoStars at read
  dsimp only at read
  split_ifs at read
  · split at read
    · exact pushed read
    · exact pushed read
    · exact stars read
  · exact stars read
  · split at read
    · exact replaced .trailing (Except.ok.inj read)
    · exact replaced .between (Except.ok.inj read)
    · split_ifs at read
      · exact replaced .trailing (Except.ok.inj read)
      · exact stars read

end Reading

variable {dir : List Char} {r after : Reading}

theorem holds_readTokens {lenient : Bool} {steps : Nat} {previous : Option Char} {text : List Char}
    (holds : r.Holds dir) (read : readTokens lenient steps previous text r = .ok after) :
    after.Holds dir := by
  induction steps generalizing previous text r with
  | zero => exact Except.ok.inj read ▸ holds
  | succ steps ih =>
    have pushed {token : Token} {previous : Option Char} {text : List Char}
        (found : (r.push token >>= fun r => readTokens lenient steps previous text r) =
          .ok after) : after.Holds dir := by
      obtain ⟨next, isNext, later⟩ := bind_eq_ok.1 found
      exact ih (holds.push isNext) later
    cases text with
    | nil => exact Except.ok.inj read ▸ holds
    | cons c rest =>
      unfold readTokens at read
      split at read
      · exact pushed read
      split at read
      · split at read
        · obtain ⟨⟨next, behind⟩, isNext, later⟩ := bind_eq_ok.1 read
          exact ih (holds.twoStars isNext) later
        · exact pushed read
      split at read
      · split at read
        · exact pushed read
        · split at read
          · exact pushed read
          · cases read
        · cases read
      split at read
      · exact ih holds.openBrace read
      split at read
      · obtain ⟨next, isNext, later⟩ := bind_eq_ok.1 read
        exact ih (holds.closeBrace isNext) later
      split at read
      · exact ih holds.nextBranch read
      split at read
      · split at read
        · cases read
        · exact pushed read
      · exact pushed read

section Plain

variable {lenient : Bool} {steps left : Nat} {previous : Option Char} {c : Char}
  {text rest : List Char} {branch : List Token}

theorem readTokens_cons (plain : IsPlain c) (opens : c ≠ '\x7d') :
    readTokens lenient (steps + 1) previous (c :: rest) ⟨[], [branch]⟩ =
      readTokens lenient steps (some c) rest ⟨[], [.literal c :: branch]⟩ := by
  obtain ⟨one, star, bracket, brace, escape⟩ := plain
  conv_lhs => unfold readTokens
  rw [if_neg one, if_neg star, if_neg bracket, if_neg brace, if_neg opens, if_neg (by simp),
    if_neg escape]
  rfl

theorem readTokens_append (plain : ∀ c ∈ text, IsPlain c) (opens : '\x7d' ∉ text) :
    readTokens lenient (steps + text.length) previous (text ++ rest) ⟨[], [branch]⟩ =
      readTokens lenient steps (text.getLast?.or previous) rest
        ⟨[], [(text.map Token.literal).reverse ++ branch]⟩ := by
  induction text generalizing previous branch with
  | nil => rfl
  | cons c text ih =>
    obtain ⟨first, others⟩ := List.forall_mem_cons.1 plain
    rw [List.mem_cons, not_or] at opens
    have last : (c :: text).getLast?.or previous = text.getLast?.or (some c) := by
      rw [List.getLast?_cons]
      cases text.getLast? <;> rfl
    rw [last, List.length_cons, ← Nat.add_assoc, List.cons_append,
      readTokens_cons first (Ne.symm opens.1), ih others opens.2]
    simp

theorem not_closing_of_readTokens (plain : ∀ c ∈ text, IsPlain c)
    (read : readTokens lenient (steps + text.length) previous (text ++ rest) ⟨[], [branch]⟩ =
      .ok after) : '\x7d' ∉ text := by
  induction text generalizing previous branch with
  | nil => exact List.not_mem_nil
  | cons c text ih =>
    obtain ⟨first, others⟩ := List.forall_mem_cons.1 plain
    rw [List.length_cons, ← Nat.add_assoc, List.cons_append] at read
    by_cases closing : c = '\x7d'
    · obtain ⟨one, star, bracket, brace, -⟩ := first
      unfold readTokens at read
      rw [if_neg one, if_neg star, if_neg bracket, if_neg brace, if_pos closing] at read
      obtain ⟨next, isNext, -⟩ := bind_eq_ok.1 read
      cases isNext
    · rw [readTokens_cons first closing] at read
      exact List.not_mem_cons_of_ne_of_not_mem (Ne.symm closing) (ih others read)

theorem readTokens_plain (plain : ∀ c ∈ text, IsPlain c) (enough : steps = left + text.length)
    (read : readTokens lenient steps previous (text ++ rest) ⟨[], [branch]⟩ = .ok after) :
    ∃ previous', readTokens lenient left previous' rest
      ⟨[], [(text.map Token.literal).reverse ++ branch]⟩ = .ok after := by
  subst enough
  have opens := not_closing_of_readTokens plain read
  exact ⟨_, readTokens_append plain opens ▸ read⟩

end Plain

section Read

variable {glob : Glob} {pattern text : String} {rest : List Char} {lenient : Bool}

theorem exists_of_read (read : Glob.read lenient pattern = .ok glob) :
    ∃ marks, readTokens lenient (pattern.toList.length + 1) none pattern.toList Reading.start =
      .ok ⟨marks, [glob.tokens.reverse]⟩ := by
  unfold Glob.read at read
  dsimp only at read
  split at read
  · cases read
  next marks branch found =>
    obtain rfl := Except.ok.inj read
    exact ⟨marks, by simpa using found⟩
  · cases read
  · cases read

theorem isMatch_iff (specific : glob.tokens ≠ [.leading]) :
    glob.isMatch text = true ↔ [] ∈ leftAfterAll glob.tokens (text.toList.flatMap charBytes) := by
  unfold Glob.isMatch
  split
  next everything => exact absurd everything specific
  · rw [toUTF8_eq, List.contains_iff_mem]

theorem begins_of_isMatch (read : Glob.read lenient pattern = .ok glob)
    (begins : pattern.toList = dir ++ '/' :: rest) (plain : ∀ c ∈ dir, IsPlain c)
    (isMatch : glob.isMatch text = true) : ∃ behind, text.toList = dir ++ '/' :: behind := by
  obtain ⟨marks, found⟩ := exists_of_read read
  have slash : IsPlain '/' := by decide
  have upTo : ∀ c ∈ dir ++ ['/'], IsPlain c := by
    simpa [or_imp, forall_and] using ⟨plain, slash⟩
  have whole : pattern.toList = (dir ++ ['/']) ++ rest := by simp [begins]
  have enough : pattern.toList.length + 1 = rest.length + 1 + (dir ++ ['/']).length := by
    rw [whole, List.length_append]
    omega
  rw [whole] at found
  obtain ⟨previous, behind⟩ := readTokens_plain upTo (whole ▸ enough) found
  have holds : Reading.Holds dir ⟨[], [((dir ++ ['/']).map Token.literal).reverse ++ []]⟩ :=
    ⟨⟨[], _, rfl, [], .literal '/', .literal, by simp⟩, by simp⟩
  obtain ⟨⟨upper, branch, branches, later, token, takes, isBranch⟩, -⟩ := holds_readTokens holds behind
  obtain ⟨rfl, rfl⟩ : upper = [] ∧ branch = glob.tokens.reverse := by
    cases upper <;> simp_all
  have tokens : glob.tokens = dir.map Token.literal ++ token :: later.reverse := by
    simpa using congrArg List.reverse isBranch
  have specific : glob.tokens ≠ [.leading] := by
    rw [tokens]
    cases dir <;> cases takes <;> simp
  have member := (isMatch_iff specific).1 isMatch
  rw [tokens, mem_leftAfterAll_literals] at member
  obtain ⟨left, isLeft, ends⟩ := member
  obtain ⟨next, isNext, -⟩ := mem_leftAfterAll_cons.1 ends
  obtain ⟨more, rfl⟩ := slash_of_leftAfter takes isNext
  have bytes : text.toList.flatMap charBytes = (dir ++ ['/']).flatMap charBytes ++ more := by
    simp [isLeft]
  obtain ⟨behind, known, -⟩ := append_of_bytes bytes
  exact ⟨behind, by simpa using known⟩

theorem eq_of_isMatch (read : Glob.read lenient pattern = .ok glob)
    (plain : ∀ c ∈ pattern.toList, IsPlain c) (isMatch : glob.isMatch text = true) :
    text = pattern := by
  obtain ⟨marks, found⟩ := exists_of_read read
  have enough : pattern.toList.length + 1 = 1 + pattern.toList.length := Nat.add_comm _ _
  have whole : pattern.toList = pattern.toList ++ [] := (List.append_nil _).symm
  rw [whole] at found
  obtain ⟨previous, ends⟩ := readTokens_plain plain (by simpa using enough) found
  have tokens : glob.tokens = pattern.toList.map Token.literal := by
    simpa [readTokens] using congrArg List.reverse (List.cons.inj (congrArg Reading.branches
      (Except.ok.inj ends))).1.symm
  have specific : glob.tokens ≠ [.leading] := by
    rw [tokens]
    cases pattern.toList <;> simp
  have member := (isMatch_iff specific).1 isMatch
  rw [tokens, ← List.append_nil (pattern.toList.map _), mem_leftAfterAll_literals] at member
  obtain ⟨left, isLeft, nothing⟩ := member
  obtain rfl : [] = left := by simpa [leftAfterAll] using nothing
  obtain ⟨behind, known, empty⟩ := append_of_bytes isLeft
  obtain rfl : behind = [] := by
    cases behind with
    | nil => rfl
    | cons c rest => simp [charBytes, String.utf8EncodeChar_ne_nil] at empty
  rwa [List.append_nil, String.toList_inj] at known

end Read

end UtilityCss.Glob
