import ScriptKit.Package.ManifestFile
import ScriptKit.Proofs.Text.Basic
import ScriptKit.Proofs.Value.Names
import ScriptKit.Proofs.Yaml.Decoded

namespace ScriptKit.Package

/-- A name that is written as a package is known by it. -/
def IsCanonical (name : String) : Prop :=
  canonicalName name = name

@[simp] theorem canonicalName_canonicalName (name : String) :
    canonicalName (canonicalName name) = canonicalName name := by
  have hspace : ∀ c, Text.isSpace (if c = '-' then '_' else c) = Text.isSpace c := by
    intro c
    split
    · rename_i hc
      subst hc
      decide
    · rfl
  have htwice : ∀ c : Char, (if (if c = '-' then '_' else c) = '-' then '_'
      else if c = '-' then '_' else c) = if c = '-' then '_' else c := by
    intro c
    split <;> simp_all
  rw [canonicalName, canonicalName, Text.trim_map hspace, String.ofList_toList,
    Text.trim_trim, String.toList_ofList, List.map_map]
  simp only [Function.comp_def, htwice]

theorem isCanonical_canonicalName (name : String) : IsCanonical (canonicalName name) :=
  canonicalName_canonicalName name

theorem pathSegment_trim (revision : String) :
    pathSegment (Text.trim revision) = pathSegment revision := by
  rw [pathSegment, pathSegment, Text.trim_trim]

theorem checkoutDirectory_trim (cache name version : String) :
    checkoutDirectory cache name (Text.trim version) = checkoutDirectory cache name version := by
  rw [checkoutDirectory, checkoutDirectory, pathSegment_trim]

/-- Every name is written as the package is known, and stands once. -/
structure CanonicalNames (names : List String) : Prop where
  canonical : ∀ n ∈ names, IsCanonical n
  nodup : names.Nodup

namespace CanonicalNames

theorem insert {α : Type} {t : NameTable α} {name : String} (h : CanonicalNames t.names)
    (hname : IsCanonical name) (value : α) : CanonicalNames (t.insert name value).names := by
  by_cases hmem : name ∈ t.names
  · rwa [NameTable.names_insert hmem]
  · rw [NameTable.names_insert_of_not_mem hmem]
    refine ⟨?_, ?_⟩
    · intro n hn
      rcases List.mem_append.mp hn with hn | hn
      · exact h.canonical n hn
      · rw [List.mem_singleton.mp hn]
        exact hname
    · refine List.nodup_append.mpr ⟨h.nodup, by simp, ?_⟩
      rintro n hn _ hm rfl
      exact hmem (List.mem_singleton.mp hm ▸ hn)

end CanonicalNames

namespace Manifest

open Yaml Decode

variable {doc : Document}

theorem decodeEntries_gives : ∀ (es : List (Node × Node)) {t : NameTable DependencySpec},
    CanonicalNames t.names → Gives (decodeEntries doc t es) fun t => CanonicalNames t.names
  | [], _, ht => .pure ht
  | (k, v) :: es, t, ht => by
    rw [decodeEntries]
    split
    · refine .after fun found => ?_
      dsimp only
      split
      · exact .refuse _
      · exact .after fun spec =>
          decodeEntries_gives es (ht.insert (isCanonical_canonicalName _) spec)
    · exact .after fun _ => .pure ht

theorem canonicalNames_empty : CanonicalNames (NameTable.empty (α := DependencySpec)).names :=
  ⟨by simp [NameTable.names, NameTable.empty], List.nodup_nil⟩

theorem decodeDependencies_gives (n : Node) :
    Gives (decodeDependencies doc n) fun t => CanonicalNames t.names := by
  unfold decodeDependencies
  split
  · exact .after fun _ => .pure canonicalNames_empty
  · split
    · exact decodeEntries_gives _ canonicalNames_empty
    · exact .refuse _

theorem setField_gives (m : Manifest) (field : String) (n : Node)
    (h : CanonicalNames m.dependencies.names) :
    Gives (setField doc m field n) fun m => CanonicalNames m.dependencies.names := by
  unfold setField
  split
  · exact .after fun _ => .pure h
  · exact .bind (decodeDependencies_gives n) fun t ht => .pure ht
  · refine .after fun found => ?_
    split
    · exact .pure h
    · refine .pure ?_
      split <;> exact h

theorem canonicalNames_of_decode {path : String} {m : Manifest}
    (h : decode doc path = .ok m) : CanonicalNames m.dependencies.names := by
  obtain ⟨found, hfound, rfl⟩ :=
    (Gives.record (P := fun m => CanonicalNames m.dependencies.names) setField_gives
      canonicalNames_empty _).of_map_run h
  cases found with
  | none => exact canonicalNames_empty
  | some m => exact hfound m rfl

variable {yaml : Codec} {fs : FileSystem} {path : String} {m : Manifest}

/-- A manifest that was read comes out of the document in its file, and nothing is wrong with it. -/
theorem document_of_load (h : load yaml fs path = .ok m) :
    ∃ text doc, fs.read (fs.absolute path) = .ok text ∧ yaml.read text = some (some doc) ∧
      decode doc (fs.absolute path) = .ok m ∧ m.issues = [] := by
  unfold load at h
  -- a document without issues is the only way to a manifest
  split at h
  · cases h
  · dsimp only at h
    split at h
    · rename_i text hread
      unfold parse at h
      split at h
      · cases h
      · cases h
      · rename_i doc hdoc
        split at h
        · cases h
        · cases h
        · rename_i hd
          split at h
          · rename_i hissues
            cases h
            exact ⟨text, doc, hread, hdoc, hd, List.isEmpty_iff.mp hissues⟩
          · cases h
    · split at h
      · cases h
      · cases h

/-- The dependencies of a manifest that was read have names as they are known, each once. -/
theorem canonicalNames_of_load (h : load yaml fs path = .ok m) :
    CanonicalNames m.dependencies.names := by
  obtain ⟨_, _, -, -, hd, -⟩ := document_of_load h
  exact canonicalNames_of_decode hd

theorem setField_keeps_path (m : Manifest) (field : String) (n : Node)
    (h : m.path = path) : Gives (setField doc m field n) fun m => m.path = path := by
  unfold setField
  split
  · exact .after fun _ => .pure h
  · exact .after fun _ => .pure h
  · refine .after fun found => ?_
    split
    · exact .pure h
    · refine .pure ?_
      split <;> exact h

/-- A manifest knows the absolute path of its file. -/
theorem path_of_load (h : load yaml fs path = .ok m) : m.path = fs.absolute path := by
  obtain ⟨_, _, -, -, hd, -⟩ := document_of_load h
  obtain ⟨found, hfound, rfl⟩ :=
    (Gives.record (P := fun m : Manifest => m.path = fs.absolute path) setField_keeps_path rfl
      _).of_map_run hd
  cases found with
  | none => rfl
  | some m => exact hfound m rfl

end Manifest

end ScriptKit.Package
