import AssetPipeline.Proofs.Build.Cycles
import AssetPipeline.Proofs.CommandLine.Repeating
import AssetPipeline.Proofs.Path.Addresses

/-! The source directory as the user names it. A run works with the cleaned form of that name, which leads
to the same place. So do the paths that are made of it: they lead from the named directory to where the
description, the settings and the source files are said to be below it. -/

namespace AssetPipeline

/-- `path` leads to where `name` leads from `root`, unless `name` starts from the top. -/
def Path.IsBelow (root name path : String) : Prop :=
  name.toList.head? ≠ some '/' → address path = (address root).below (steps name)

variable {root : String}

theorem Path.isBelow_joinRoot (hroot : '\\' ∉ root.toList) (name : String) :
    IsBelow root name (joinRoot (cleanRoot root) name) := by
  intro hname
  rw [address_joinRoot hname, address_cleanRoot hroot]

theorem Path.address_joinRoot_settings (hroot : '\\' ∉ root.toList) :
    address (joinRoot (cleanRoot root) settingsFileName) = (address root).below [settingsFileName] := by
  have hsteps : steps settingsFileName = [settingsFileName] := by decide
  rw [isBelow_joinRoot hroot settingsFileName (by decide), hsteps]

/-- A cleaned root is not empty, begins with no `./` and ends in no slash, but for the top itself; cleaning
it again changes nothing. It leads to where the root does, and what is joined to it lies below that place:
the description, the settings file, and the source files that edges take in. -/
theorem cleanRoot_keeps_address (hroot : '\\' ∉ root.toList) :
    Path.cleanRoot (Path.cleanRoot root) = Path.cleanRoot root ∧
    Path.address (Path.cleanRoot root) = Path.address root ∧
    Path.cleanRoot root ≠ "" ∧
    ((Path.cleanRoot root).toList.getLast? = some '/' → Path.cleanRoot root = "/") ∧
    ¬ ['.', '/'] <+: (Path.cleanRoot root).toList ∧
    (∀ name, Path.IsBelow root name (Path.joinRoot (Path.cleanRoot root) name)) ∧
    ∀ program w o, CommandLine.options program w root = .ok o →
      (∃ loaded, loadSettings w (Path.cleanRoot root) = .ok loaded ∧
        Path.IsBelow root loaded.settings.script o.scriptPath) ∧
      (∀ path ∈ o.settingsPath, Path.address path = (Path.address root).below [settingsFileName]) ∧
      ∀ d c, compile (.ofWorkspace w o.srcRoot) d = .ok c → ∃ first second : List (List Edge),
        d.ExpandsTo (.ofWorkspace w o.srcRoot) first second ∧
        c.graph.edges = first.flatten ++ second.flatten ∧
        ∀ e ∈ first.flatten, ∀ input ∈ e.inputs, ∃ b ∈ d.sourceBuilders, ∃ files,
          (Sources.ofWorkspace w o.srcRoot).resolve b.pattern = .ok files ∧
          ∃ file ∈ files, Path.IsBelow root file input := by
  refine ⟨Path.cleanRoot_cleanRoot root, Path.address_cleanRoot hroot, Path.cleanRoot_ne_empty root,
    Path.cleanRoot_eq_slash_of_getLast?, Path.not_prefix_cleanRoot root, Path.isBelow_joinRoot hroot, ?_⟩
  intro program w o ho
  obtain ⟨loaded, hloaded, ho⟩ := bind_eq_ok_iff.mp ho
  cases ho
  refine ⟨⟨loaded, hloaded, Path.isBelow_joinRoot hroot _⟩, fun path hpath => ?_, fun d c hcompile => ?_⟩
  · obtain ⟨_, -, rfl⟩ := Option.map_eq_some_iff.mp hpath
    exact Path.address_joinRoot_settings hroot
  · obtain ⟨first, second, hexpands, hedges, -⟩ := compile_edges hcompile
    refine ⟨first, second, hexpands, hedges, fun e he input hinput => ?_⟩
    obtain ⟨b, hb, files, hfiles, file, hfile, rfl⟩ := hexpands.sourcePath_of_mem he hinput
    exact ⟨b, hb, files, hfiles, file, hfile, Path.isBelow_joinRoot hroot file⟩

theorem cleanRoot_keeps_address_dots :
    '\\' ∉ "././/art/".toList ∧ Path.cleanRoot "././/art/" = "art" ∧
      Path.address "art" = Path.address "././/art/" := by
  have hclean : Path.cleanRoot "././/art/" = "art" := by decide +kernel
  have hroot : '\\' ∉ "././/art/".toList := by decide
  obtain ⟨-, haddress, -⟩ := cleanRoot_keeps_address hroot
  rw [hclean] at haddress
  exact ⟨hroot, hclean, haddress⟩

end AssetPipeline
