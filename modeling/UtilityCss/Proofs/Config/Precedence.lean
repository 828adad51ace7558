import UtilityCss.Proofs.Config.Loading
import UtilityCss.Proofs.Theme.Replaced

set_option autoImplicit false

namespace UtilityCss

open UtilityCss.Theme
open Relation

namespace Config

def Stack.Outlasts (stack : Stack) (file other : Path) : Prop :=
  ∃ before layer after, stack = before ++ layer :: after ∧ layer.origin = some file ∧
    ∀ later ∈ layer :: after, later.origin ≠ some other

def ListsAll (tree : FileTree) (file : Path) (presets : List Path) : Prop :=
  ∃ layer, Layer.ofFile tree file = .ok layer ∧
    List.Forall₂ (fun name preset => placeOfPreset tree layer.base name = .ok preset)
      layer.presets presets

def LeadsLast (tree : FileTree) (file place next : Path) (behind : List Path) : Prop :=
  (∃ before, ListsAll tree place (before ++ next :: behind)) ∧
    ReflTransGen (Lists tree) next file ∧ ∀ other ∈ behind, ¬ ReflTransGen (Lists tree) other file

/-- On the last way from a place to a file, something that leads to another file is listed behind.
-/
inductive Overtaken (tree : FileTree) (file other : Path) : Path → Prop
  | here {place next preset : Path} {behind : List Path}
      (way : LeadsLast tree file place next behind) (listed : preset ∈ behind)
      (leads : ReflTransGen (Lists tree) preset other) : Overtaken tree file other place
  | deeper {place next : Path} {behind : List Path}
      (way : LeadsLast tree file place next behind) (overtaken : Overtaken tree file other next) :
      Overtaken tree file other place

namespace Stack

variable {early late : Stack} {file other : Path}

theorem outlasts_append_of_mem (inside : ∃ layer ∈ late, layer.origin = some other) :
    Outlasts (early ++ late) file other ↔ Outlasts late file other := by
  constructor
  · rintro ⟨before, layer, after, split, isFile, last⟩
    rcases List.append_eq_append_iff.1 split with ⟨more, rfl, rfl⟩ | ⟨more, rfl, rest⟩
    · exact ⟨more, layer, after, rfl, isFile, last⟩
    · obtain ⟨found, member, isOther⟩ := inside
      exact absurd isOther (last found (rest ▸ List.mem_append_right _ member))
  · rintro ⟨before, layer, after, rfl, isFile, last⟩
    exact ⟨early ++ before, layer, after, (List.append_assoc ..).symm, isFile, last⟩

theorem outlasts_append_of_not_mem (absent : ∀ layer ∈ late, layer.origin ≠ some other) :
    Outlasts (early ++ late) file other ↔
      (∃ layer ∈ late, layer.origin = some file) ∨ Outlasts early file other := by
  constructor
  · rintro ⟨before, layer, after, split, isFile, last⟩
    rcases List.append_eq_append_iff.1 split with ⟨more, rfl, rfl⟩ | ⟨more, rfl, rest⟩
    · exact .inl ⟨layer, by simp, isFile⟩
    · rcases List.cons_eq_append_iff.1 rest with ⟨rfl, rfl⟩ | ⟨between, rfl, rfl⟩
      · exact .inl ⟨layer, List.mem_cons_self, isFile⟩
      · rw [← List.cons_append, List.forall_mem_append] at last
        exact .inr ⟨before, layer, between, rfl, isFile, last.1⟩
  · rintro (⟨layer, member, isFile⟩ | ⟨before, layer, after, rfl, isFile, last⟩)
    · obtain ⟨before, after, rfl⟩ := List.append_of_mem member
      exact ⟨early ++ before, layer, after, (List.append_assoc ..).symm, isFile,
        fun later inside => absent later (List.mem_append_right _ inside)⟩
    · refine ⟨before, layer, after ++ late, by simp, isFile, ?_⟩
      rw [← List.cons_append]
      exact List.forall_mem_append.2 ⟨last, absent⟩

theorem outlasts_concat_last (early : Stack) {last : Layer} (isLast : last.origin = some file)
    (distinct : file ≠ other) :
    Outlasts (early ++ [last]) file other ∧ ¬ Outlasts (early ++ [last]) other file := by
  constructor
  · exact (outlasts_append_of_not_mem (by simp [isLast, distinct])).2
      (.inl ⟨last, List.mem_singleton_self last, isLast⟩)
  · rw [outlasts_append_of_mem ⟨last, List.mem_singleton_self last, isLast⟩]
    rintro ⟨before, layer, after, split, -, none⟩
    rcases List.singleton_eq_append_iff.1 split with ⟨-, same⟩ | ⟨-, same⟩
    · exact none last (same ▸ List.mem_singleton_self last) isLast
    · cases same

theorem outlasts_iff_not (distinct : file ≠ other) {stack : Stack}
    (isLoaded : ∃ layer ∈ stack, layer.origin = some file) :
    Outlasts stack file other ↔ ¬ Outlasts stack other file := by
  induction stack using List.reverseRecOn with
  | nil => simp at isLoaded
  | append_singleton early last ih =>
    by_cases isFile : last.origin = some file
    · obtain ⟨holds, fails⟩ := outlasts_concat_last early isFile distinct
      exact iff_of_true holds fails
    · by_cases isOther : last.origin = some other
      · obtain ⟨holds, fails⟩ := outlasts_concat_last early isOther distinct.symm
        exact iff_of_false fails (not_not_intro holds)
      · have loaded : ∃ layer ∈ early, layer.origin = some file := by simpa [isFile] using isLoaded
        rw [outlasts_append_of_not_mem (by simpa using isOther),
          outlasts_append_of_not_mem (by simpa using isFile)]
        simpa [isFile, isOther] using ih loaded

end Stack

section Places

variable {tree : FileTree} {chain behind : List Path} {file place next other preset : Path}
  {layer : Layer} {presets : PresetTree} {trees : List PresetTree}

theorem PresetTree.exists_layer_iff :
    (∃ layer ∈ presets.layers, layer.origin = some file) ↔ file ∈ presets.files := by
  rw [PresetTree.files, List.mem_filterMap]

theorem PresetTree.exists_layers_iff :
    (∃ layer ∈ trees.flatMap layers, layer.origin = some file) ↔
      ∃ below ∈ trees, file ∈ below.files := by
  constructor
  · rintro ⟨layer, member, isFile⟩
    obtain ⟨below, inside, found⟩ := List.mem_flatMap.1 member
    exact ⟨below, inside, exists_layer_iff.1 ⟨layer, found, isFile⟩⟩
  · rintro ⟨below, inside, found⟩
    obtain ⟨layer, member, isFile⟩ := exists_layer_iff.2 found
    exact ⟨layer, List.mem_flatMap.2 ⟨below, inside, member⟩, isFile⟩

theorem exists_last {α : Type} {items : List α} {holds : α → Prop}
    (some : ∃ item ∈ items, holds item) :
    ∃ before item after, items = before ++ item :: after ∧ holds item ∧
      ∀ later ∈ after, ¬ holds later := by
  induction items with
  | nil => simp at some
  | cons first rest ih =>
    by_cases later : ∃ item ∈ rest, holds item
    · obtain ⟨before, item, after, rfl, isLast⟩ := ih later
      exact ⟨first :: before, item, after, rfl, isLast⟩
    · obtain ⟨item, member, held⟩ := some
      rcases List.mem_cons.1 member with rfl | inside
      · exact ⟨[], item, rest, rfl, held, fun other found isHeld => later ⟨other, found, isHeld⟩⟩
      · exact absurd ⟨item, inside, held⟩ later

theorem eq_of_split_last {α : Type} {holds : α → Prop} {before others after rest : List α}
    {item found : α} (same : before ++ item :: after = others ++ found :: rest) (held : holds item)
    (isHeld : holds found) (last : ∀ later ∈ after, ¬ holds later)
    (isLast : ∀ later ∈ rest, ¬ holds later) : item = found ∧ after = rest := by
  rcases List.append_eq_append_iff.1 same with ⟨more, rfl, split⟩ | ⟨more, rfl, split⟩ <;>
    rcases List.cons_eq_append_iff.1 split with ⟨rfl, split⟩ | ⟨between, rfl, rfl⟩
  · obtain ⟨rfl, rfl⟩ := List.cons.inj split
    exact ⟨rfl, rfl⟩
  · exact absurd isHeld (last found (by simp))
  · obtain ⟨rfl, rfl⟩ := List.cons.inj split
    exact ⟨rfl, rfl⟩
  · exact absurd held (isLast item (by simp))

theorem ListsAll.unique {others : List Path} (lists : ListsAll tree place behind)
    (also : ListsAll tree place others) : behind = others := by
  obtain ⟨layer, read, located⟩ := lists
  obtain ⟨own, isOwn, found⟩ := also
  obtain rfl := Except.ok.inj (read.symm.trans isOwn)
  exact List.right_unique_forall₂'
    (fun _ _ _ first second => Except.ok.inj (first.symm.trans second)) located found

theorem ListsAll.lists (all : ListsAll tree place behind) (member : next ∈ behind) :
    Lists tree place next := by
  obtain ⟨layer, read, located⟩ := all
  obtain ⟨name, isListed, found⟩ := exists_left_of_forall₂ located member
  exact ⟨layer, name, read, isListed, found⟩

namespace LeadsLast

theorem leads (way : LeadsLast tree file place next behind) :
    TransGen (Lists tree) place file := by
  obtain ⟨⟨before, all⟩, rest, -⟩ := way
  exact .head' (all.lists (by simp)) rest

theorem unique {others : List Path} (way : LeadsLast tree file place next behind)
    (also : LeadsLast tree file place other others) : next = other ∧ behind = others := by
  obtain ⟨⟨before, all⟩, leads, none⟩ := way
  obtain ⟨⟨more, isAll⟩, isLeads, isNone⟩ := also
  exact eq_of_split_last (all.unique isAll) leads isLeads none isNone

theorem overtaken_iff (way : LeadsLast tree file place next behind) :
    Overtaken tree file other place ↔
      (∃ preset ∈ behind, ReflTransGen (Lists tree) preset other) ∨
        Overtaken tree file other next := by
  constructor
  · intro overtaken
    cases overtaken with
    | here also listed leads =>
      obtain ⟨rfl, rfl⟩ := way.unique also
      exact .inl ⟨_, listed, leads⟩
    | deeper also further =>
      obtain ⟨rfl, rfl⟩ := way.unique also
      exact .inr further
  · rintro (⟨preset, listed, leads⟩ | further)
    · exact .here way listed leads
    · exact .deeper way further

end LeadsLast

namespace Unfolds

theorem exists_subtree (unfolds : Unfolds tree chain presets) (inside : file ∈ presets.files) :
    ∃ way below, Unfolds tree way below ∧ below.file = file := by
  induction unfolds with
  | @node chain place layer trees fresh read located unfolded ih =>
    rw [files_node read, List.mem_append, List.mem_flatMap, List.mem_singleton] at inside
    rcases inside with ⟨below, isBelow, found⟩ | rfl
    · exact ih below isBelow found
    · exact ⟨chain, _, .node fresh read located unfolded, rfl⟩

theorem root_irrefl (unfolds : Unfolds tree chain presets) :
    ¬ TransGen (Lists tree) presets.file presets.file := by
  cases unfolds with
  | @node _ file layer trees fresh read located unfolded =>
    intro loop
    obtain ⟨next, lists, rest⟩ := TransGen.head'_iff.1 loop
    obtain ⟨below, inside, rfl⟩ := (lists_iff read located).1 lists
    exact (unfolded below inside).not_mem_files file
      (List.mem_append_right _ (List.mem_singleton_self file))
      ((unfolded below inside).mem_files.2 rest)

theorem irrefl (unfolds : Unfolds tree chain presets) (inside : file ∈ presets.files) :
    ¬ TransGen (Lists tree) file file := by
  obtain ⟨way, below, isTree, rfl⟩ := unfolds.exists_subtree inside
  exact isTree.root_irrefl

theorem leadsLast (read : Layer.ofFile tree place = .ok layer) {front back : List PresetTree}
    {last : PresetTree} (located : List.Forall₂
      (fun name below => placeOfPreset tree layer.base name = .ok below.file)
      layer.presets (front ++ last :: back))
    (unfolded : ∀ below ∈ front ++ last :: back, Unfolds tree chain below)
    (inside : file ∈ last.files) (absent : ∀ later ∈ back, file ∉ later.files) :
    LeadsLast tree file place last.file (back.map PresetTree.file) := by
  have all : ListsAll tree place ((front ++ last :: back).map PresetTree.file) :=
    ⟨layer, read, List.forall₂_map_right_iff.2 located⟩
  rw [List.forall_mem_append, List.forall_mem_cons] at unfolded
  obtain ⟨-, isTree, others⟩ := unfolded
  refine ⟨⟨front.map PresetTree.file, by simpa using all⟩, isTree.mem_files.1 inside, ?_⟩
  rw [List.forall_mem_map]
  exact fun later member leads => absent later member ((others later member).mem_files.2 leads)

theorem outlasts_node_iff (read : Layer.ofFile tree place = .ok layer) (apart : place ≠ file)
    (other_apart : place ≠ other) {front back : List PresetTree} {last : PresetTree}
    (inside : file ∈ last.files) (absent : ∀ later ∈ back, file ∉ later.files) :
    Stack.Outlasts (PresetTree.node place layer (front ++ last :: back)).layers other file ↔
      (∃ later ∈ back, other ∈ later.files) ∨ Stack.Outlasts last.layers other file := by
  have origin := (Layer.of_ofFile read).1
  have split : (PresetTree.node place layer (front ++ last :: back)).layers =
      front.flatMap PresetTree.layers ++
        (last.layers ++ (back.flatMap PresetTree.layers ++ [layer])) := by
    simp [PresetTree.layers, PresetTree.layersOf_eq]
  rw [split, Stack.outlasts_append_of_mem, Stack.outlasts_append_of_not_mem]
  · refine or_congr_left ?_
    rw [← PresetTree.exists_layers_iff]
    simp [or_and_right, exists_or, origin, other_apart]
  · rw [List.forall_mem_append, List.forall_mem_singleton, origin]
    refine ⟨fun later member isFile => ?_, by simpa using apart⟩
    obtain ⟨below, isBelow, found⟩ := PresetTree.exists_layers_iff.1 ⟨later, member, isFile⟩
    exact absent below isBelow found
  · obtain ⟨found, member, isFile⟩ := PresetTree.exists_layer_iff.2 inside
    exact ⟨found, List.mem_append_left _ member, isFile⟩

theorem outlasts_iff_overtaken (unfolds : Unfolds tree chain presets)
    (leads : ReflTransGen (Lists tree) presets.file file)
    (lists : TransGen (Lists tree) file preset) :
    Stack.Outlasts presets.layers preset file ↔ Overtaken tree file preset presets.file := by
  induction unfolds with
  | @node chain place layer trees fresh read located unfolded ih =>
    have acyclic : ¬ TransGen (Lists tree) place place :=
      root_irrefl (.node fresh read located unfolded)
    rw [PresetTree.file] at leads ⊢
    rcases leads.cases_head with rfl | ⟨next, first, rest⟩
    · -- The file has the last layer itself, and nothing that it lists leads back to it.
      refine iff_of_false ?_ fun overtaken => ?_
      · rw [PresetTree.layers]
        have apart : place ≠ preset := by
          rintro rfl
          exact acyclic lists
        exact (Stack.outlasts_concat_last _ (Layer.of_ofFile read).1 apart).2
      · cases overtaken with
        | here way => exact acyclic way.leads
        | deeper way => exact acyclic way.leads
    · have onward := TransGen.head' first rest
      have apart : place ≠ file := fun same => acyclic (same ▸ onward)
      have presetApart : place ≠ preset := fun same => acyclic (onward.trans (same ▸ lists))
      obtain ⟨below, inside, rfl⟩ := (lists_iff read located).1 first
      have some : ∃ below ∈ trees, file ∈ below.files :=
        ⟨below, inside, (unfolded below inside).mem_files.2 rest⟩
      obtain ⟨front, last, back, rfl, isLast, absent⟩ := exists_last some
      have way := leadsLast read located unfolded isLast absent
      have within : last ∈ front ++ last :: back := by simp
      rw [outlasts_node_iff read apart presetApart isLast absent, way.overtaken_iff,
        ih last within ((unfolded last within).mem_files.1 isLast)]
      refine or_congr_left ?_
      simp only [List.mem_map, exists_exists_and_eq_and]
      refine exists_congr fun later => and_congr_right fun member => ?_
      exact (unfolded later (by simp [member])).mem_files

end Unfolds

end Places

end Config

namespace Theme

open UtilityCss.Config

theorem mergeSections_of_defined {ask : String → Step (Option Value)} {key : String}
    {first late : List (Table Setting)} {memory last : Memory} {value : Option Value}
    (defined : ∃ part ∈ late, (definition? key part).isSome)
    (merged : mergeSections ask key (first ++ late) none memory = (.ok value, last)) :
    ∃ between, mergeSections ask key late none between = (.ok value, last) := by
  rw [mergeSections_eq, Plan.ofSections_append, Plan.run_andThen] at merged
  rcases ran : (Plan.ofSections key first none).run ask memory with ⟨_ | running, between⟩
  · simp [ran] at merged
  · rw [ran] at merged
    refine ⟨between, ?_⟩
    rw [mergeSections_eq, Plan.ofSections_of_defined defined none running]
    exact merged

end Theme

namespace Config

theorem Stack.Outlasts.merged {stack : Stack} {file other : Path} {key : String}
    {sections : List (Table Setting)} (outlasts : stack.Outlasts file other)
    (defines : ∀ layer ∈ stack, layer.origin = some file →
      (layer.config.settingAt [themeEntry, key]).isSome)
    (found : Basis.sectionsOf 0 stack = .ok sections) :
    ∃ before own after late, stack = before ++ own :: after ∧ own.origin = some file ∧
      (∀ layer ∈ own :: after, layer.origin ≠ some other) ∧
      Basis.sectionsOf before.length (own :: after) = .ok late ∧
      ∀ ask memory value last, mergeSections ask key sections none memory = (.ok value, last) →
        ∃ between, mergeSections ask key late none between = (.ok value, last) := by
  obtain ⟨before, layer, after, rfl, isFile, none⟩ := outlasts
  rw [Basis.sectionsOf_append, Nat.zero_add] at found
  obtain ⟨first, -, found⟩ := bind_eq_ok.1 found
  obtain ⟨late, behind, rfl⟩ := map_eq_ok.1 found
  refine ⟨before, layer, after, late, rfl, isFile, none, behind, fun ask memory value last => ?_⟩
  have own := defines layer (by simp) isFile
  obtain ⟨part, isTheme⟩ := exists_section_of_settingAt own
  rw [settingAt_definition isTheme] at own
  exact mergeSections_of_defined
    ⟨part, Basis.part_mem_sectionsOf behind List.mem_cons_self isTheme, own⟩

/-- A file is overtaken by one of its presets exactly if, behind the last preset on the way to it,
one is listed that leads to that preset as well. Whichever of the two has the last layer decides
what it defines, and the other one has no part in that. -/
theorem preset_outlasts_iff {tree : FileTree} {path start file preset : Path} {stack : Stack}
    {own : Layer} (found : tree.canonicalize path = .ok start)
    (loaded : Stack.ofFile tree path = .ok stack) (inside : own ∈ stack)
    (isOwn : own.origin = some file) (lists : TransGen (Lists tree) file preset) :
    (stack.Outlasts preset file ↔ Overtaken tree file preset start) ∧
    (stack.Outlasts file preset ↔ ¬ Overtaken tree file preset start) ∧
    ∀ winner loser layer key sections, stack.Outlasts winner loser → layer ∈ stack →
      layer.origin = some winner → (layer.config.settingAt [themeEntry, key]).isSome →
      Basis.sectionsOf 0 stack = .ok sections →
      ∃ before first after late, stack = before ++ first :: after ∧ first.origin = some winner ∧
        (∀ later ∈ first :: after, later.origin ≠ some loser) ∧
        Basis.sectionsOf before.length (first :: after) = .ok late ∧
        ∀ ask memory value last, mergeSections ask key sections none memory = (.ok value, last) →
          ∃ between, mergeSections ask key late none between = (.ok value, last) := by
  rw [ofFile_of_canonicalize found] at loaded
  obtain ⟨presets, rfl, unfolds, rfl⟩ := unfolds_of_ofFileWithin loaded
  have member := PresetTree.exists_layer_iff.1 ⟨own, inside, isOwn⟩
  have leads := unfolds.mem_files.1 member
  have decided := unfolds.outlasts_iff_overtaken leads lists
  have apart : file ≠ preset := by
    rintro rfl
    exact unfolds.irrefl member lists
  refine ⟨decided, ?_, ?_⟩
  · rw [Stack.outlasts_iff_not apart ⟨own, inside, isOwn⟩, decided]
  · intro winner loser layer key sections outlasts isLoaded isWinner defines isSections
    refine outlasts.merged (fun other isOther origin => ?_) isSections
    obtain ⟨source, read⟩ := unfolds.read_of_mem layer isLoaded
    obtain ⟨place, isRead⟩ := unfolds.read_of_mem other isOther
    have same : source = place := Option.some.inj <|
      ((Layer.of_ofFile read).1.symm.trans isWinner).trans
        (origin.symm.trans (Layer.of_ofFile isRead).1)
    subst same
    exact Except.ok.inj (read.symm.trans isRead) ▸ defines

theorem preset_outlasts_of_sharedPreset :
    ∃ stack own, Stack.ofFile sharedPreset ⟨"main.toml"⟩ = .ok stack ∧ own ∈ stack ∧
      own.origin = some ⟨"/a.toml"⟩ ∧
      TransGen (Lists sharedPreset) ⟨"/a.toml"⟩ ⟨"/b.toml"⟩ ∧
      (own.config.settingAt [themeEntry, "ring"]).isSome ∧
      stack.Outlasts ⟨"/b.toml"⟩ ⟨"/a.toml"⟩ ∧
      Overtaken sharedPreset ⟨"/a.toml"⟩ ⟨"/b.toml"⟩ ⟨"/main.toml"⟩ ∧
      textsAt ⟨[]⟩ stack ["ring"] = some [some "narrow"] := by
  have found : sharedPreset.canonicalize ⟨"main.toml"⟩ = .ok ⟨"/main.toml"⟩ := by decide +kernel
  have rings : (Stack.ofFile sharedPreset ⟨"main.toml"⟩).toOption.bind
      (textsAt ⟨[]⟩ · ["ring"]) = some [some "narrow"] := by decide +kernel
  have summary : (Stack.ofFile sharedPreset ⟨"main.toml"⟩).map (List.map fun layer =>
      (layer.origin, (layer.config.settingAt [themeEntry, "ring"]).isSome)) =
      .ok [(some ⟨"/b.toml"⟩, true), (some ⟨"/a.toml"⟩, true), (some ⟨"/b.toml"⟩, true),
        (some ⟨"/c.toml"⟩, false), (some ⟨"/main.toml"⟩, false)] := by decide +kernel
  have listed : (Layer.ofFile sharedPreset ⟨"/a.toml"⟩).map (fun layer =>
      (layer.presets, placeOfPreset sharedPreset layer.base "b")) =
      .ok (["b"], .ok ⟨"/b.toml"⟩) := by decide +kernel
  have lists : Lists sharedPreset ⟨"/a.toml"⟩ ⟨"/b.toml"⟩ := by
    cases read : Layer.ofFile sharedPreset ⟨"/a.toml"⟩ with
    | error _ => cases read ▸ listed
    | ok layer =>
      rw [read] at listed
      obtain ⟨names, place⟩ := Prod.mk.inj (Except.ok.inj listed)
      exact ⟨layer, "b", read, by simp [names], place⟩
  cases loaded : Stack.ofFile sharedPreset ⟨"main.toml"⟩ with
  | error _ => cases loaded ▸ summary
  | ok stack =>
    rw [loaded] at summary rings
    have layers := Except.ok.inj summary
    obtain ⟨first, rest, rfl, -, split⟩ := List.map_eq_cons_iff.1 layers
    obtain ⟨own, rest, rfl, isOwn, split⟩ := List.map_eq_cons_iff.1 split
    obtain ⟨again, rest, rfl, isAgain, split⟩ := List.map_eq_cons_iff.1 split
    obtain ⟨third, rest, rfl, isThird, split⟩ := List.map_eq_cons_iff.1 split
    obtain ⟨main, rest, rfl, isMain, split⟩ := List.map_eq_cons_iff.1 split
    obtain rfl := List.map_eq_nil_iff.1 split
    rw [Prod.mk.injEq] at isOwn isAgain isThird isMain
    have outlasts : Stack.Outlasts [first, own, again, third, main] ⟨"/b.toml"⟩ ⟨"/a.toml"⟩ := by
      refine ⟨[first, own], again, [third, main], rfl, isAgain.1, ?_⟩
      simp [isAgain.1, isThird.1, isMain.1]
    have decided := preset_outlasts_iff found loaded (by simp) isOwn.1 (.single lists)
    exact ⟨_, own, rfl, by simp, isOwn.1, .single lists, isOwn.2, outlasts,
      decided.1.1 outlasts, rings⟩

end Config

end UtilityCss
