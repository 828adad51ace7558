import Mathlib.Data.List.Forall2
import Mathlib.Logic.Relation
import UtilityCss.Config.Files
import UtilityCss.Proofs.Path.Order
import UtilityCss.Proofs.Result

set_option autoImplicit false

namespace UtilityCss.Config

open Relation

inductive PresetTree where
  | node (file : Path) (layer : Layer) (presets : List PresetTree)

namespace PresetTree

def file : PresetTree → Path
  | .node file _ _ => file

mutual

def layers : PresetTree → Stack
  | .node _ layer presets => layersOf presets ++ [layer]

def layersOf : List PresetTree → Stack
  | [] => []
  | first :: rest => layers first ++ layersOf rest

end

theorem layersOf_eq (presets : List PresetTree) : layersOf presets = presets.flatMap layers := by
  induction presets with
  | nil => rfl
  | cons first rest ih => simp [layersOf, ih]

def files (presets : PresetTree) : List Path := presets.layers.filterMap Layer.origin

end PresetTree

/-- A tree of presets below some files: none of these stands in it again, and every node is read
from its file and has one subtree for each preset that it lists. -/
inductive Unfolds (tree : FileTree) : List Path → PresetTree → Prop
  | node {chain : List Path} {file : Path} {layer : Layer} {presets : List PresetTree}
      (fresh : chain.any file.same = false) (read : Layer.ofFile tree file = .ok layer)
      (located : List.Forall₂
        (fun preset below => placeOfPreset tree layer.base preset = .ok below.file)
        layer.presets presets)
      (unfolded : ∀ below ∈ presets, Unfolds tree (chain ++ [file]) below) :
      Unfolds tree chain (.node file layer presets)

def Lists (tree : FileTree) (file preset : Path) : Prop :=
  ∃ layer name, Layer.ofFile tree file = .ok layer ∧ name ∈ layer.presets ∧
    placeOfPreset tree layer.base name = .ok preset

variable {tree : FileTree} {chain : List Path} {file other preset : Path} {layer : Layer}
  {presets : PresetTree}

theorem Layer.of_ofFile (read : Layer.ofFile tree file = .ok layer) :
    layer.origin = some file ∧ layer.base = file.directory := by
  obtain ⟨content, -, read⟩ := bind_eq_ok.1 read
  obtain ⟨layer, isLayer, rfl⟩ := map_eq_ok.1 read
  unfold Layer.read at isLayer
  split at isLayer
  · obtain rfl := Except.ok.inj isLayer
    exact ⟨rfl, rfl⟩
  · cases isLayer

theorem exists_left_of_forall₂ {α β : Type} {related : α → β → Prop} {left : List α}
    {right : List β} (all : List.Forall₂ related left right) {second : β} (member : second ∈ right) :
    ∃ first ∈ left, related first second := by
  induction all with
  | nil => cases member
  | cons pair rest ih =>
    rcases List.mem_cons.1 member with rfl | later
    · exact ⟨_, List.mem_cons_self, pair⟩
    · obtain ⟨first, inside, isRelated⟩ := ih later
      exact ⟨first, List.mem_cons_of_mem _ inside, isRelated⟩

theorem exists_right_of_forall₂ {α β : Type} {related : α → β → Prop} {left : List α}
    {right : List β} (all : List.Forall₂ related left right) {first : α} (member : first ∈ left) :
    ∃ second ∈ right, related first second := exists_left_of_forall₂ all.flip member

namespace Unfolds

theorem lists_iff {below : List PresetTree} (read : Layer.ofFile tree file = .ok layer)
    (located : List.Forall₂
      (fun name below => placeOfPreset tree layer.base name = .ok below.file)
      layer.presets below) :
    Lists tree file other ↔ ∃ next ∈ below, next.file = other := by
  constructor
  · rintro ⟨own, name, isOwn, member, place⟩
    obtain rfl := Except.ok.inj (read.symm.trans isOwn)
    obtain ⟨next, inside, same⟩ := exists_right_of_forall₂ located member
    exact ⟨next, inside, Except.ok.inj (same.symm.trans place)⟩
  · rintro ⟨next, inside, rfl⟩
    obtain ⟨name, member, place⟩ := exists_left_of_forall₂ located inside
    exact ⟨layer, name, read, member, place⟩

theorem files_node (read : Layer.ofFile tree file = .ok layer) (below : List PresetTree) :
    (PresetTree.node file layer below).files = below.flatMap PresetTree.files ++ [file] := by
  rw [PresetTree.files, PresetTree.layers, PresetTree.layersOf_eq, List.filterMap_append,
    List.filterMap_flatMap, List.filterMap_cons_some (Layer.of_ofFile read).1]
  rfl

theorem mem_files (unfolds : Unfolds tree chain presets) :
    other ∈ presets.files ↔ ReflTransGen (Lists tree) presets.file other := by
  induction unfolds with
  | @node chain file layer below fresh read located unfolded ih =>
    rw [files_node read, List.mem_append, List.mem_flatMap, List.mem_singleton]
    constructor
    · rintro (⟨next, inside, member⟩ | rfl)
      · exact .head ((lists_iff read located).2 ⟨next, inside, rfl⟩) ((ih next inside).1 member)
      · exact .refl
    · intro leads
      rcases leads.cases_head with same | ⟨middle, lists, rest⟩
      · exact .inr same.symm
      · obtain ⟨next, inside, rfl⟩ := (lists_iff read located).1 lists
        exact .inl ⟨next, inside, (ih next inside).2 rest⟩

theorem not_mem_files (unfolds : Unfolds tree chain presets) :
    ∀ before ∈ chain, before ∉ presets.files := by
  induction unfolds with
  | @node chain file layer below fresh read located unfolded ih =>
    intro before member
    rw [files_node read, List.mem_append, List.mem_flatMap, List.mem_singleton, not_or]
    constructor
    · rintro ⟨next, inside, found⟩
      exact ih next inside before (List.mem_append_left _ member) found
    · rintro rfl
      have repeated : chain.any before.same = true :=
        List.any_eq_true.2 ⟨before, member, Path.same_refl before⟩
      exact Bool.false_ne_true (fresh.symm.trans repeated)

theorem read_of_mem (unfolds : Unfolds tree chain presets) :
    ∀ layer ∈ presets.layers, ∃ file, Layer.ofFile tree file = .ok layer := by
  induction unfolds with
  | @node chain file own below fresh read located unfolded ih =>
    intro layer member
    rw [PresetTree.layers, PresetTree.layersOf_eq, List.mem_append, List.mem_flatMap,
      List.mem_singleton] at member
    rcases member with ⟨next, inside, found⟩ | rfl
    · exact ih next inside layer found
    · exact ⟨file, read⟩

end Unfolds

end UtilityCss.Config
