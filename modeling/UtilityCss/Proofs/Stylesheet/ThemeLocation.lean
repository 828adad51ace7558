import UtilityCss.Proofs.Stylesheet.Uncommented
import UtilityCss.Proofs.Text.Slices

set_option autoImplicit false

namespace UtilityCss.Stylesheet

/-- A theme block by its offsets in bytes, with the text between its braces. -/
structure LocatedBlock where
  start : Nat
  stop : Nat
  body : String
  deriving DecidableEq, Repr

def isOutermostAt (css : String) (target : Nat) : Bool :=
  (Place.top.walk (Text.upTo target css.toList)).isOutermost

def closing? (text : List Char) : Option Nat :=
  (untilClosed 0 none text).map fun parts => Text.bytes parts.1

def blockAtOffset? (css : String) (start : Nat) : Option (Option LocatedBlock) :=
  (Text.slice? css start css.utf8ByteSize).bind fun behind =>
    match Text.findChar? '{' behind.toList with
    | none => some none
    | some ahead =>
      let opening := start + ahead
      (Text.slice? css opening css.utf8ByteSize).bind fun inner =>
        match closing? inner.toList with
        | none => some none
        | some length =>
          let close := opening + length
          (Text.slice? css (opening + 1) close).map fun body => some ⟨start, close + 1, body⟩

inductive Advance where
  | ended
  | passed (cursor : Nat)
  | found (block : LocatedBlock)

def Advance.ofBlock : Option LocatedBlock → Advance
  | none => .ended
  | some block => .found block

def advance? (css : String) (cursor : Nat) : Option Advance :=
  (Text.slice? css cursor css.utf8ByteSize).bind fun text =>
    match Text.find? themeMarker text.toList with
    | none => some .ended
    | some ahead =>
      let start := cursor + ahead
      if isOutermostAt css start then (blockAtOffset? css start).map .ofBlock
      else some (.passed (start + Text.bytes themeMarker))

def Advance.Beyond (css : String) (cursor : Nat) : Advance → Prop
  | .ended => True
  | .passed next => cursor < next ∧ cursor < css.utf8ByteSize
  | .found block => cursor < block.stop ∧ cursor < css.utf8ByteSize

theorem lt_of_marked {css text : String} {cursor ahead : Nat}
    (rest : Text.slice? css cursor css.utf8ByteSize = some text)
    (marked : Text.find? themeMarker text.toList = some ahead) :
    cursor < css.utf8ByteSize := by
  obtain ⟨-, -, -, -, size⟩ := Text.slice?_eq_some_iff.1 rest
  obtain ⟨parts, split, -⟩ := Option.map_eq_some_iff.1 marked
  have length := congrArg Text.bytes (Text.eq_of_splitAtText split)
  have positive : 0 < Text.bytes themeMarker := by decide
  rw [Text.bytes_toList, Text.bytes_append, Text.bytes_append] at length
  omega

theorem lt_stop_of_found {css : String} {start : Nat} {block : LocatedBlock}
    (found : blockAtOffset? css start = some (some block)) : start < block.stop := by
  obtain ⟨behind, -, found⟩ := Option.bind_eq_some_iff.1 found
  split at found
  · cases found
  obtain ⟨inner, -, found⟩ := Option.bind_eq_some_iff.1 found
  split at found
  · cases found
  obtain ⟨body, -, same⟩ := Option.map_eq_some_iff.1 found
  cases same
  dsimp only
  omega

theorem beyond_of_advance {css : String} {cursor : Nat} {next : Advance}
    (advanced : advance? css cursor = some next) : next.Beyond css cursor := by
  obtain ⟨text, rest, found⟩ := Option.bind_eq_some_iff.1 advanced
  split at found
  · cases found
    trivial
  rename_i ahead marked
  have within := lt_of_marked rest marked
  have positive : 0 < Text.bytes themeMarker := by decide
  dsimp only at found
  split at found
  · obtain ⟨_ | block, located, same⟩ := Option.map_eq_some_iff.1 found
    · cases same
      trivial
    · cases same
      have beyond := lt_stop_of_found located
      exact ⟨by omega, within⟩
  · cases found
    exact ⟨by omega, within⟩

def locateFrom? (css : String) (cursor : Nat) : Option (List LocatedBlock) :=
  match _advanced : advance? css cursor with
  | none => none
  | some .ended => some []
  | some (.passed next) => locateFrom? css next
  | some (.found block) => (locateFrom? css block.stop).map (block :: ·)
termination_by css.utf8ByteSize - cursor
decreasing_by
  all_goals
    have beyond := beyond_of_advance _advanced
    simp only [Advance.Beyond] at beyond
    omega

def locate? (css : String) : Option (List LocatedBlock) := locateFrom? css 0

theorem locateFrom?_ended {css : String} {cursor : Nat}
    (advanced : advance? css cursor = some .ended) : locateFrom? css cursor = some [] := by
  rw [locateFrom?]
  split <;> simp_all

theorem locateFrom?_passed {css : String} {cursor next : Nat}
    (advanced : advance? css cursor = some (.passed next)) :
    locateFrom? css cursor = locateFrom? css next := by
  rw [locateFrom?]
  split <;> simp_all

theorem locateFrom?_found {css : String} {cursor : Nat} {block : LocatedBlock}
    (advanced : advance? css cursor = some (.found block)) :
    locateFrom? css cursor = (locateFrom? css block.stop).map (block :: ·) := by
  rw [locateFrom?]
  split <;> simp_all

variable {place : Place} {c : Char} {gap text rest before after : List Char} {css : String}
  {block : Block}

def Block.located (start : Nat) (block : Block) : LocatedBlock :=
  ⟨start, start + Text.bytes block.text, String.ofList block.body⟩

namespace Cutting

def located : Nat → List (List Char × Block) → List LocatedBlock
  | _, [] => []
  | offset, (gap, block) :: blocks =>
    let start := offset + Text.bytes gap
    block.located start :: located (start + Text.bytes block.text) blocks

def push (gap : List Char) (cutting : Cutting) : Cutting := gap.foldr cons cutting

theorem located_cons (offset : Nat) (c : Char) (cutting : Cutting) :
    located offset (cutting.cons c).blocks = located (offset + c.utf8Size) cutting.blocks := by
  obtain ⟨blocks, rest⟩ := cutting
  cases blocks <;> simp [cons, located, Nat.add_assoc]

theorem located_push (offset : Nat) (gap : List Char) (cutting : Cutting) :
    located offset (cutting.push gap).blocks =
      located (offset + Text.bytes gap) cutting.blocks := by
  induction gap generalizing offset with
  | nil => rfl
  | cons c gap ih =>
    rw [push, List.foldr_cons, located_cons, ← push, ih, Text.bytes_cons, Nat.add_assoc]

end Cutting

theorem startsTheme_of_unmarked (unmarked : themeMarker.isPrefixOf? text = none) :
    startsTheme place text = false := by
  have absent : themeMarker.isPrefixOf text = false := by
    rw [← List.isSome_isPrefixOf?_eq_isPrefixOf, unmarked]
    rfl
  simp [startsTheme, absent]

theorem cutFrom_unmarked (unmarked : Text.splitAtText themeMarker text = none) :
    cutFrom place text = ⟨[], text⟩ := by
  induction text generalizing place with
  | nil => rw [cutFrom]
  | cons c rest ih =>
    rw [Text.splitAtText] at unmarked
    split at unmarked
    · cases unmarked
    · rename_i other
      rw [cutFrom_step (startsTheme_of_unmarked other), ih (Option.map_eq_none_iff.1 unmarked)]
      rfl

theorem cutFrom_marked (marked : Text.splitAtText themeMarker text = some (gap, after)) :
    cutFrom place text = (cutFrom (place.walk gap) (themeMarker ++ after)).push gap := by
  induction text generalizing place gap with
  | nil => simp [Text.splitAtText, themeMarker] at marked
  | cons c rest ih =>
    rw [Text.splitAtText] at marked
    split at marked
    · rename_i behind starts
      obtain ⟨rfl, rfl⟩ : [] = gap ∧ behind = after := by simpa using marked
      rw [Text.eq_of_isPrefixOf? starts]
      rfl
    · rename_i other
      obtain ⟨⟨first, second⟩, inner, equal⟩ := Option.map_eq_some_iff.1 marked
      obtain ⟨rfl, rfl⟩ : c :: first = gap ∧ second = after := by simpa using equal
      rw [cutFrom_step (startsTheme_of_unmarked other), ih inner]
      rfl

theorem cutFrom_append (absent : '@' ∉ text) (after : List Char) :
    cutFrom place (text ++ after) = (cutFrom (place.walk text) after).push text := by
  induction text generalizing place with
  | nil => rfl
  | cons c rest ih =>
    obtain ⟨first, below⟩ := List.ne_and_not_mem_of_not_mem_cons absent
    rw [List.cons_append, cutFrom_step (startsTheme_of_first first.symm _), ih below]
    rfl

theorem cutFrom_inner (inner : place.isOutermost = false) (after : List Char) :
    cutFrom place (themeMarker ++ after) =
      (cutFrom (place.walk themeMarker) after).push themeMarker := by
  have other : startsTheme place (themeMarker ++ after) = false := by simp [startsTheme, inner]
  calc cutFrom place (themeMarker ++ after)
    _ = (cutFrom (place.step '@') (themeMarker.tail ++ after)).cons '@' := cutFrom_step other
    _ = ((cutFrom (place.walk themeMarker) after).push themeMarker.tail).cons '@' := by
      rw [cutFrom_append (by decide)]
      rfl

theorem isOutermostAt_bytes (joined : css.toList = before ++ after) :
    isOutermostAt css (Text.bytes before) = (Place.top.walk before).isOutermost := by
  rw [isOutermostAt, joined, Text.upTo_bytes]

theorem bytes_text (block : Block) :
    Text.bytes block.text = Text.bytes block.opening + 1 + Text.bytes block.body + 1 := by
  have opens : '{'.utf8Size = 1 := by decide
  have closes : '}'.utf8Size = 1 := by decide
  simp only [Block.text, Text.bytes_append, Text.bytes_cons, Text.bytes_nil, opens, closes]
  omega

theorem closing?_brace (text : List Char) :
    closing? ('{' :: text) = (untilClosed 1 none text).map fun parts => 1 + Text.bytes parts.1 := by
  have size : '{'.utf8Size = 1 := by decide
  unfold closing?
  cases closed : untilClosed 1 none text with
  | none => simp [untilClosed, closed, prepend]
  | some parts => simp [untilClosed, closed, prepend, size]

theorem blockAtOffset?_bytes (joined : css.toList = before ++ text) :
    blockAtOffset? css (Text.bytes before) =
      some ((blockAt? text).map fun found => found.1.located (Text.bytes before)) := by
  rw [blockAtOffset?, Text.slice?_to_end joined, Option.bind_some, String.toList_ofList,
    Text.findChar?]
  cases cut : Text.splitOnce '{' text with
  | none => simp [blockAt?, cut]
  | some parts =>
    obtain ⟨opening, inner⟩ := parts
    obtain ⟨rfl, -⟩ := Text.eq_of_splitOnce cut
    have opens : css.toList = (before ++ opening) ++ '{' :: inner := by
      rw [joined, List.append_assoc]
    have rest := Text.slice?_to_end opens
    rw [Text.bytes_append] at rest
    dsimp only [Option.map_some]
    rw [rest, Option.bind_some, String.toList_ofList, closing?_brace]
    cases closed : untilClosed 1 none inner with
    | none => simp [blockAt?, cut, closed]
    | some parts =>
      obtain ⟨body, behind⟩ := parts
      have brace : Text.bytes ['{'] = 1 := by decide
      have closes : css.toList = (before ++ opening ++ ['{']) ++ body ++ '}' :: behind := by
        rw [opens, eq_of_untilClosed closed]
        simp
      have slice := Text.slice?_of_toList closes
      rw [Text.bytes_append, Text.bytes_append, brace] at slice
      dsimp only [Option.map_some]
      rw [← Nat.add_assoc, slice]
      simp [blockAt?, cut, closed, Block.located, bytes_text, Nat.add_assoc]

theorem advance?_unmarked (joined : css.toList = before ++ text)
    (unmarked : Text.splitAtText themeMarker text = none) :
    advance? css (Text.bytes before) = some .ended := by
  simp [advance?, Text.slice?_to_end joined, Text.find?, unmarked]

theorem advance?_marked (joined : css.toList = before ++ text)
    (marked : Text.splitAtText themeMarker text = some (gap, after)) :
    advance? css (Text.bytes before) = some
      (if (Place.top.walk (before ++ gap)).isOutermost then
        .ofBlock ((blockAt? (themeMarker ++ after)).map fun found =>
          found.1.located (Text.bytes (before ++ gap)))
      else .passed (Text.bytes (before ++ gap ++ themeMarker))) := by
  have start : css.toList = (before ++ gap) ++ (themeMarker ++ after) := by
    rw [joined, Text.eq_of_splitAtText marked]
    simp
  have outermost := isOutermostAt_bytes start
  have block := blockAtOffset?_bytes start
  rw [Text.bytes_append] at outermost block
  rw [advance?, Text.slice?_to_end joined, Option.bind_some, String.toList_ofList, Text.find?,
    marked]
  dsimp only [Option.map_some]
  rw [outermost, block]
  simp only [Text.bytes_append]
  split <;> rfl

theorem locateFrom?_bytes (joined : css.toList = before ++ text) :
    locateFrom? css (Text.bytes before) = some (Cutting.located (Text.bytes before)
      (cutFrom (Place.top.walk before) text).blocks) := by
  induction length : text.length using Nat.strong_induction_on generalizing before text with
  | _ size ih =>
  subst length
  cases marked : Text.splitAtText themeMarker text with
  | none => rw [locateFrom?_ended (advance?_unmarked joined marked), cutFrom_unmarked marked]; rfl
  | some parts =>
    obtain ⟨gap, after⟩ := parts
    have advanced := advance?_marked joined marked
    have text_eq := Text.eq_of_splitAtText marked
    rw [cutFrom_marked marked, Cutting.located_push, ← Place.walk_append, ← Text.bytes_append]
    cases outer : (Place.top.walk (before ++ gap)).isOutermost with
    | false =>
      rw [outer, if_neg (by simp)] at advanced
      rw [locateFrom?_passed advanced, cutFrom_inner outer, Cutting.located_push,
        ← Place.walk_append, ← Text.bytes_append]
      exact ih after.length (by simp [text_eq, themeMarker]; omega) (by simp [joined, text_eq]) rfl
    | true =>
      have starts : startsTheme (Place.top.walk (before ++ gap)) (themeMarker ++ after) = true := by
        simp [startsTheme, outer, List.isPrefixOf_iff_prefix]
      rw [outer, if_pos rfl] at advanced
      cases found : blockAt? (themeMarker ++ after) with
      | none =>
        rw [found] at advanced
        rw [locateFrom?_ended advanced, cutFrom_unclosed starts found]
        rfl
      | some parts =>
        obtain ⟨block, behind⟩ := parts
        have block_eq := eq_of_blockAt found
        have shorter : behind.length < text.length := by
          rw [text_eq, List.append_assoc, block_eq]
          simp [Block.text]
          omega
        have split : css.toList = (before ++ gap ++ block.text) ++ behind := by
          simp [joined, text_eq, block_eq]
        have later := ih behind.length shorter split rfl
        rw [found] at advanced
        rw [Text.bytes_append, Place.walk_append] at later
        rw [locateFrom?_found advanced, cutFrom_block starts found]
        dsimp only [Block.located]
        rw [later]
        rfl

def codeOf : Inside → List Char → List Char
  | .code, '/' :: '*' :: rest => codeOf (.comment false) rest
  | .code, c :: rest => c :: codeOf (if isQuoteMark c then .quoted c false else .code) rest
  | .comment afterStar, c :: rest => codeOf (Inside.stepComment afterStar c) rest
  | .quoted quote escaped, c :: rest => codeOf (Inside.stepQuoted quote escaped c) rest
  | _, [] => []

def openBraces (depth : Nat) (text : List Char) : Nat :=
  text.foldl (fun depth c => if c = '{' then depth + 1 else if c = '}' then depth - 1 else depth)
    depth

def Outermost (before : List Char) : Prop :=
  Inside.after .code before = .code ∧ openBraces 0 (codeOf .code before) = 0

theorem codeOf_code (plain : ¬ commentMark <+: c :: rest) :
    codeOf .code (c :: rest) = c :: codeOf (Inside.next .code c) rest := by
  rw [codeOf.eq_2]
  · rfl
  · rintro rest' rfl rfl
    exact plain (by simp [commentMark])

theorem depth_step_code (depth : Nat) (c : Char) :
    (Place.step ⟨depth, .code, false⟩ c).depth = openBraces depth [c] := by
  simp only [Place.step, openBraces, List.foldl_cons, List.foldl_nil, Bool.false_and]
  by_cases quote : isQuoteMark c = true
  · have other : c ≠ '{' ∧ c ≠ '}' := by
      constructor <;> rintro rfl <;> simp [isQuoteMark] at quote
    simp [quote, other]
  · simp only [quote]
    split_ifs <;> simp_all

theorem depth_walk (between : place.Between text) :
    (place.walk text).depth = openBraces place.depth (codeOf place.inside text) := by
  generalize inside_eq : place.inside = inside
  fun_induction Inside.after inside text generalizing place with
  | case1 text ih =>
    have stepped := Place.step_start inside_eq
    have within : ((place.step '/').step '*').Between text := by simp [stepped, Place.Between]
    have same := ih within (by rw [stepped])
    rw [stepped] at same
    change (((place.step '/').step '*').walk text).depth = _
    rw [stepped, same]
    rfl
  | case2 inside c text plain ih =>
    have code : inside = .code → ¬ commentMark <+: c :: text := fun code =>
      no_comment_of_plain fun rest' => plain rest' code
    rw [← inside_eq] at code
    have stepped := Place.step_of_between between
    have behind : (place.step c).Between text := stepped ▸ Place.between_step code
    have same := ih behind (by rw [stepped, Place.inside_step, inside_eq])
    change ((place.step c).walk text).depth = _
    rw [same, stepped]
    subst inside_eq
    cases inside : place.inside with
    | code =>
      rw [codeOf_code (code inside), depth_step_code]
      rfl
    | comment afterStar => rfl
    | quoted quote escaped => rfl
  | case3 inside => cases inside <;> rfl

theorem isOutermost_iff (before : List Char) :
    (Place.top.walk before).isOutermost = true ↔ Outermost before := by
  have inside : (Place.top.walk before).inside = Inside.after .code before :=
    Place.inside_walk (Place.between_top before)
  have depth : (Place.top.walk before).depth = openBraces 0 (codeOf .code before) :=
    depth_walk (Place.between_top before)
  simp [Outermost, Place.isOutermost, inside, depth, and_comm]

theorem prefix_of_not_mem {marker : List Char} (absent : c ∉ marker)
    (starts : marker <+: text ++ c :: rest) : marker <+: text := by
  rcases List.prefix_or_prefix_of_prefix starts (List.prefix_append text _) with below | ⟨more, rfl⟩
  · exact below
  · rcases List.prefix_cons_iff.1 ((List.prefix_append_right_inj text).1 starts) with
      rfl | ⟨behind, rfl, -⟩
    · rw [List.append_nil]
    · exact absurd (by simp) absent

theorem marker_of_blockAt (starts : startsTheme place text = true)
    (found : blockAt? text = some (block, after)) : themeMarker <+: block.opening := by
  have marked : themeMarker <+: text :=
    List.isPrefixOf_iff_prefix.1 (Bool.and_eq_true_iff.1 starts).2
  rw [eq_of_blockAt found, Block.text, List.append_assoc, List.append_assoc,
    List.cons_append] at marked
  exact prefix_of_not_mem (by decide) marked

theorem split_of_located (joined : css.toList = before ++ text) :
    ∀ found ∈ Cutting.located (Text.bytes before) (cutFrom (Place.top.walk before) text).blocks,
      ∃ front block behind, css.toList = front ++ Block.text block ++ behind ∧
        found = block.located (Text.bytes front) ∧ (Place.top.walk front).isOutermost = true ∧
        themeMarker <+: block.opening := by
  generalize isPlace : Place.top.walk before = place
  fun_induction cutFrom place text generalizing before with
  | case1 => simp [Cutting.located]
  | case2 => simp [Cutting.located]
  | case3 place c rest starts block after found cutting =>
    rename_i ih
    intro entry member
    have joined' : css.toList = before ++ block.text ++ after := by
      rw [joined, eq_of_blockAt found, List.append_assoc]
    rcases List.mem_cons.1 member with rfl | later
    · have outermost : (Place.top.walk before).isOutermost = true :=
        isPlace ▸ (Bool.and_eq_true_iff.1 starts).1
      exact ⟨before, block, after, joined', rfl, outermost, marker_of_blockAt starts found⟩
    · have behind := ih joined' (by rw [Place.walk_append, isPlace])
      rw [Text.bytes_append] at behind
      exact behind entry later
  | case4 place c rest other ih =>
    have split : css.toList = (before ++ [c]) ++ rest := by
      rw [joined, List.append_assoc]
      rfl
    have behind := ih split (by rw [Place.walk_append, isPlace]; rfl)
    rw [Text.bytes_append, Text.bytes_cons, Text.bytes_nil, Nat.add_zero] at behind
    rw [Cutting.located_cons]
    exact behind

theorem le_start_of_located {offset : Nat} {blocks : List (List Char × Block)} :
    ∀ found ∈ Cutting.located offset blocks, offset ≤ found.start := by
  induction blocks generalizing offset with
  | nil => simp [Cutting.located]
  | cons entry blocks ih =>
    intro found member
    rcases List.mem_cons.1 member with rfl | later
    · exact Nat.le_add_right _ _
    · exact Nat.le_trans (by omega) (ih found later)

theorem pairwise_located (offset : Nat) (blocks : List (List Char × Block)) :
    (Cutting.located offset blocks).Pairwise fun first second => first.stop ≤ second.start := by
  induction blocks generalizing offset with
  | nil => exact List.Pairwise.nil
  | cons entry blocks ih => exact List.Pairwise.cons le_start_of_located (ih _)

/-- A block of a stylesheet at which the stylesheet can be sliced: it starts with a marker outside
all braces, comments and strings, and ends in a brace. -/
structure LocatedBlock.Stands (css : String) (block : LocatedBlock) : Prop where
  nonempty : block.start < block.stop
  within : block.stop ≤ css.utf8ByteSize
  starts : String.Pos.Raw.IsValid css ⟨block.start⟩
  stops : String.Pos.Raw.IsValid css ⟨block.stop⟩
  outermost : ∃ before, Text.slice? css 0 block.start = some before ∧ Outermost before.toList
  spans : ∃ opening, themeMarker <+: opening.toList ∧
    Text.slice? css block.start block.stop =
      some (opening ++ "\x7b" ++ block.body ++ "\x7d") ∧
    Text.slice? css (block.start + opening.utf8ByteSize + 1) (block.stop - 1) = some block.body

theorem Block.ofList_text (block : Block) : String.ofList block.text =
    String.ofList block.opening ++ "\x7b" ++ String.ofList block.body ++ "\x7d" := by
  apply String.toList_inj.1
  simp [Block.text]

theorem slice?_body {behind : List Char} (joined : css.toList = before ++ block.text ++ behind) :
    Text.slice? css (Text.bytes before + Text.bytes block.opening + 1)
      (Text.bytes before + Text.bytes block.text - 1) = some (String.ofList block.body) := by
  have split : css.toList = (before ++ block.opening ++ ['{']) ++ block.body ++ '}' :: behind := by
    rw [joined, Block.text]
    simp
  have slice := Text.slice?_of_toList split
  have brace : Text.bytes ['{'] = 1 := by decide
  rw [Text.bytes_append, Text.bytes_append, brace] at slice
  have stop : Text.bytes before + Text.bytes block.text - 1 =
      Text.bytes before + Text.bytes block.opening + 1 + Text.bytes block.body := by
    rw [bytes_text]
    omega
  rw [stop]
  exact slice

theorem stands_of_split {behind : List Char} (joined : css.toList = before ++ block.text ++ behind)
    (outermost : (Place.top.walk before).isOutermost = true)
    (marked : themeMarker <+: block.opening) :
    (block.located (Text.bytes before)).Stands css := by
  have size : css.utf8ByteSize = Text.bytes before + Text.bytes block.text + Text.bytes behind := by
    rw [← Text.bytes_toList, joined, Text.bytes_append, Text.bytes_append]
  have slice := Text.slice?_of_toList joined
  obtain ⟨-, starts, stops⟩ := Text.valid_of_slice? slice
  have front : css.toList = [] ++ before ++ (block.text ++ behind) := by
    rw [joined, List.nil_append, List.append_assoc]
  have outside := Text.slice?_of_toList front
  rw [Text.bytes_nil, Nat.zero_add] at outside
  rw [Block.ofList_text] at slice
  have isOutermost : Outermost (String.ofList before).toList := by
    rw [String.toList_ofList]
    exact (isOutermost_iff before).1 outermost
  exact {
    nonempty := by
      have length := bytes_text block
      simp only [Block.located]
      omega
    within := by
      simp only [Block.located]
      omega
    starts := starts
    stops := stops
    outermost := ⟨_, outside, isOutermost⟩
    spans := ⟨_, by rwa [String.toList_ofList], slice, slice?_body joined⟩ }

def LocatedBlock.declarations (block : LocatedBlock) : List (String × String) :=
  (splitDeclarations 0 block.body.toList).filterMap declaration?

/-- The texts between the blocks from an offset on, each with the block behind it, and the text
behind the last block. There is no answer if a slice is missing. -/
def slices? (css : String) : Nat → List LocatedBlock → Option (List (String × String) × String)
  | cursor, [] => (Text.slice? css cursor css.utf8ByteSize).map fun rest => ([], rest)
  | cursor, block :: blocks =>
    (Text.slice? css cursor block.start).bind fun gap =>
      (Text.slice? css block.start block.stop).bind fun text =>
        (slices? css block.stop blocks).map fun (parts, rest) => ((gap, text) :: parts, rest)

theorem slices?_located {blocks : List (List Char × Block)}
    (joined : css.toList = before ++ Cutting.text ⟨blocks, rest⟩) :
    slices? css (Text.bytes before) (Cutting.located (Text.bytes before) blocks) =
      some (blocks.map fun (gap, block) => (String.ofList gap, String.ofList block.text),
        String.ofList rest) := by
  induction blocks generalizing before with
  | nil => rw [Cutting.located, slices?, Text.slice?_to_end joined]; rfl
  | cons entry blocks ih =>
    obtain ⟨gap, block⟩ := entry
    have split : css.toList = before ++ gap ++ block.text ++ Cutting.text ⟨blocks, rest⟩ := by
      rw [joined]
      simp [Cutting.text]
    have front : css.toList = before ++ gap ++ (block.text ++ Cutting.text ⟨blocks, rest⟩) := by
      rw [split, List.append_assoc]
    have first := Text.slice?_of_toList front
    have second := Text.slice?_of_toList split
    have later := ih split
    rw [Text.bytes_append] at second
    rw [Text.bytes_append, Text.bytes_append] at later
    rw [Cutting.located, slices?]
    dsimp only [Block.located]
    rw [first, Option.bind_some, second, Option.bind_some, later]
    rfl

theorem declarations_located (offset : Nat) (blocks : List (List Char × Block)) :
    (Cutting.located offset blocks).flatMap LocatedBlock.declarations =
      (blocks.map Prod.snd).flatMap Block.declarations := by
  induction blocks generalizing offset with
  | nil => rfl
  | cons entry blocks ih =>
    have first : (entry.2.located (offset + Text.bytes entry.1)).declarations =
        entry.2.declarations := by
      rw [LocatedBlock.declarations, Block.located, String.toList_ofList, Block.declarations]
    rw [Cutting.located, List.flatMap_cons, first, ih, List.map_cons, List.flatMap_cons]

/-- The theme blocks of a text are in order and apart, each stands where the text can be sliced, and
with the texts between them they are the whole text. -/
theorem themeBlocks_located (css : String) :
    ∃ blocks parts rest, locate? css = some blocks ∧
      blocks.Pairwise (fun first second => first.stop ≤ second.start) ∧
      (∀ block ∈ blocks, block.Stands css) ∧
      slices? css 0 blocks = some (parts, rest) ∧
      String.join (parts.map fun (gap, text) => gap ++ text) ++ rest = css ∧
      (∀ path, (parse path css).declarations = blocks.flatMap LocatedBlock.declarations) ∧
      readLines css.toList =
        (Text.lines (uncommented (String.join (parts.map Prod.fst) ++ rest).toList)).map
          readLine := by
  have start : css.toList = [] ++ css.toList := rfl
  have whole : css.toList = [] ++ (cutBlocks css.toList).text := (text_cutFrom _ _).symm
  refine ⟨_, _, _, locateFrom?_bytes start, pairwise_located _ _, ?_, slices?_located whole, ?_,
    fun path => (declarations_located _ _).symm, ?_⟩
  · intro found member
    obtain ⟨front, block, behind, joined, rfl, outermost, marked⟩ := split_of_located start _ member
    exact stands_of_split joined outermost marked
  · apply String.toList_inj.1
    rw [String.toList_append, String.toList_join, String.toList_ofList]
    simp only [List.flatMap_map, String.toList_append, String.toList_ofList]
    exact whole.symm
  · rw [readLines, String.toList_append, String.toList_join, String.toList_ofList]
    simp only [List.flatMap_map, String.toList_ofList]
    rfl

-- Offsets are in bytes, and a marker inside braces starts no block.
example : locate? "é @theme \x7b --a: ü; \x7d p \x7b @theme \x7b\x7d \x7d" =
    some [⟨3, 22, " --a: ü; "⟩] := by decide +kernel

end UtilityCss.Stylesheet
