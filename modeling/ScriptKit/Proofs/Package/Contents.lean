import Mathlib.Algebra.GroupWithZero.Nat
import Mathlib.Data.List.Flatten
import ScriptKit.Package.Checksum
import ScriptKit.Proofs.Text.Basic

namespace ScriptKit.Package

variable {fs fs' : FileSystem} {directory directory' : String} {f : String × String}
  {files files' : List (String × String)} {ns ns' : List Nat}

section Bytes

theorem toList_loop (bytes : ByteArray) (i : Nat) (r : List UInt8) :
    ByteArray.toList.loop bytes i r = r.reverse ++ bytes.data.toList.drop i := by
  induction i, r using ByteArray.toList.loop.induct bytes with
  | case1 i r hi ih =>
    have hlength : i < bytes.data.toList.length := by simpa using hi
    have hget : bytes.data.toList.drop i = bytes.get! i :: bytes.data.toList.drop (i + 1) := by
      rw [List.drop_eq_getElem_cons hlength, Array.getElem_toList, ← getElem!_pos]
      rfl
    rw [ByteArray.toList.loop, if_pos hi, ih, hget]
    simp
  | case2 i r hi =>
    have hend : bytes.data.toList.length ≤ i := by simpa using hi
    rw [ByteArray.toList.loop, if_neg hi, List.drop_eq_nil_of_le hend, List.append_nil]

theorem toList_eq_data (bytes : ByteArray) : bytes.toList = bytes.data.toList :=
  toList_loop bytes 0 []

theorem toUTF8_inj {s t : String} : s.toUTF8.toList = t.toUTF8.toList ↔ s = t := by
  rw [toList_eq_data, toList_eq_data, Array.toList_inj, ← ByteArray.ext_iff,
    String.toUTF8_eq_toByteArray, String.toUTF8_eq_toByteArray, String.toByteArray_inj]

theorem length_toUTF8 (s : String) : s.toUTF8.toList.length = s.utf8ByteSize := by
  rw [toList_eq_data]
  rfl

end Bytes

section Parts

/-- The paths and contents of files one after the other. -/
def parts (files : List (String × String)) : List (List UInt8) :=
  files.flatMap fun f => [f.1.toUTF8.toList, f.2.toUTF8.toList]

/-- How many bytes each path and each content has. -/
def partLengths (files : List (String × String)) : List Nat :=
  files.flatMap fun f => [f.1.utf8ByteSize, f.2.utf8ByteSize]

theorem map_length_parts (files : List (String × String)) :
    (parts files).map List.length = partLengths files := by
  rw [parts, partLengths, List.map_flatMap]
  simp only [List.map_cons, List.map_nil, length_toUTF8]

theorem parts_cons (f : String × String) (files : List (String × String)) :
    parts (f :: files) = f.1.toUTF8.toList :: f.2.toUTF8.toList :: parts files := rfl

theorem parts_inj : ∀ {files files' : List (String × String)},
    parts files = parts files' ↔ files = files'
  | [], [] => by simp
  | [], _ :: _ => by simp [parts]
  | _ :: _, [] => by simp [parts]
  | (path, content) :: files, (path', content') :: files' => by
    rw [parts_cons, parts_cons, List.cons_eq_cons, List.cons_eq_cons, toUTF8_inj, toUTF8_inj, parts_inj,
      List.cons_eq_cons, Prod.mk.injEq, and_assoc]

theorem flatten_parts (files : List (String × String)) :
    (parts files).flatten = files.flatMap fun f => fileBytes f.1 f.2 := by
  induction files with
  | nil => rfl
  | cons f files ih =>
    rw [parts_cons, List.flatten_cons, List.flatten_cons, ih, List.flatMap_cons, fileBytes,
      List.append_assoc]

/-- The bytes of files and the lengths of their parts together tell the files. -/
theorem flatten_parts_inj : files = files' ↔
    (parts files).flatten = (parts files').flatten ∧ partLengths files = partLengths files' := by
  rw [← parts_inj, List.eq_iff_flatten_eq, map_length_parts, map_length_parts]

theorem length_flatten_parts (files : List (String × String)) :
    (parts files).flatten.length = (partLengths files).sum := by
  rw [List.length_flatten, map_length_parts]

/-- Two lists that agree in all places but at most one. -/
def AgreeButOne (ns ns' : List Nat) : Prop :=
  ns = ns' ∨ ∃ front n n' back, ns = front ++ n :: back ∧ ns' = front ++ n' :: back

theorem AgreeButOne.eq_of_sum (h : AgreeButOne ns ns') (hsum : ns.sum = ns'.sum) : ns = ns' := by
  rcases h with h | ⟨front, n, n', back, rfl, rfl⟩
  · exact h
  · have hn : n = n' := by
      simp only [List.sum_append, List.sum_cons] at hsum
      omega
    rw [hn]

/-- A list of files that has one more than another. -/
def OneMore (files files' : List (String × String)) : Prop :=
  ∃ front file back, files = front ++ file :: back ∧ files' = front ++ back ∧ file.1 ≠ ""

theorem OneMore.sum_lt (h : OneMore files files') :
    (partLengths files').sum < (partLengths files).sum := by
  obtain ⟨front, file, back, rfl, rfl, hfile⟩ := h
  have hpath : file.1.utf8ByteSize ≠ 0 := by simpa using hfile
  simp only [partLengths, List.flatMap_append, List.flatMap_cons, List.sum_append, List.sum_cons,
    List.sum_nil]
  omega

end Parts

section Contents

/-- A file of a directory that counts, by its path from there on with slashes between the names. -/
structure Holds (fs : FileSystem) (directory : String) (f : String × String) : Prop where
  outside : Path.name directory ≠ ignoredDirectory
  stored : ∃ path names, (path, Entry.file f.2) ∈ fs.entries.entries ∧
    Path.components path = Path.steps (fs.absolute directory) ++ names ∧
    ignoredDirectory ∉ names.dropLast ∧ "/".intercalate names = f.1

/-- The files of a directory that count, in the order of a walk. -/
def contents (fs : FileSystem) (directory : String) : List (String × String) :=
  (countedFiles fs directory).map fun f => ("/".intercalate f.1, f.2)

theorem mem_filesBelow {names : List String} {content : String} :
    (names, content) ∈ fs.filesBelow directory ↔
      ∃ path, (path, Entry.file content) ∈ fs.entries.entries ∧
        Path.components path = Path.steps (fs.absolute directory) ++ names := by
  unfold FileSystem.filesBelow
  dsimp only
  rw [List.mem_mergeSort, List.mem_filterMap]
  constructor
  · rintro ⟨⟨path, entry⟩, hmem, hbelow⟩
    cases entry with
    | directory => cases hbelow
    | file text =>
      dsimp only at hbelow
      split at hbelow
      · rename_i hfront
        obtain ⟨rest, hrest⟩ := List.isPrefixOf_iff_prefix.mp hfront
        rw [← hrest, List.drop_left] at hbelow
        cases hbelow
        exact ⟨path, hmem, hrest.symm⟩
      · cases hbelow
  · rintro ⟨path, hmem, hnames⟩
    refine ⟨(path, .file content), hmem, ?_⟩
    dsimp only
    rw [hnames, if_pos (List.isPrefixOf_iff_prefix.mpr (List.prefix_append _ _)), List.drop_left]

theorem mem_contents_iff : f ∈ contents fs directory ↔ Holds fs directory f := by
  obtain ⟨relative, content⟩ := f
  -- a directory of the ignored name counts nothing, and any other one what is in no such directory
  have hmem : ∀ names : List String, (names, content) ∈ countedFiles fs directory ↔
      Path.name directory ≠ ignoredDirectory ∧ (names, content) ∈ fs.filesBelow directory ∧
        ignoredDirectory ∉ names.dropLast := by
    intro names
    unfold countedFiles
    split
    · rename_i hname
      simp [hname]
    · rename_i hname
      simp [hname, isIgnored]
  rw [contents, List.mem_map]
  constructor
  · rintro ⟨⟨names, text⟩, hcounted, heq⟩
    obtain ⟨rfl, rfl⟩ := Prod.mk.inj heq
    obtain ⟨houtside, hbelow, hignored⟩ := (hmem names).mp hcounted
    obtain ⟨path, hstored, hnames⟩ := mem_filesBelow.mp hbelow
    exact ⟨houtside, path, names, hstored, hnames, hignored, rfl⟩
  · rintro ⟨houtside, path, names, hstored, hnames, hignored, hrelative⟩
    exact ⟨(names, content), (hmem names).mpr
      ⟨houtside, mem_filesBelow.mpr ⟨path, hstored, hnames⟩, hignored⟩, by rw [hrelative]⟩

/-- The checksum of a directory is taken of the parts of its files. -/
theorem checksumBytes_eq (h : fs.find directory = .ok .directory) :
    checksumBytes fs directory = .ok (parts (contents fs directory)).flatten := by
  rw [checksumBytes, FileSystem.inspect, h]
  dsimp only
  rw [flatten_parts, contents, List.flatMap_map]

/-- The bytes that the checksum of a directory is taken of and the lengths of the paths and contents
among them tell what files it has. As the lengths are not among the bytes, directories with different
files are sure to have different bytes only if their lengths agree in all places but at most one, such
as when one file is changed, or if one of them has one file more. -/
theorem checksum_tells_files (h : fs.find directory = .ok .directory)
    (h' : fs'.find directory' = .ok .directory) :
    let files := contents fs directory
    let files' := contents fs' directory'
    ∃ bytes bytes', checksumBytes fs directory = .ok bytes ∧
      checksumBytes fs' directory' = .ok bytes' ∧
      checksum fs directory = .ok (Digest.sha256 bytes) ∧
      checksum fs' directory' = .ok (Digest.sha256 bytes') ∧
      (files = files' ↔ bytes = bytes' ∧ partLengths files = partLengths files') ∧
      ((∃ f, ¬(Holds fs directory f ↔ Holds fs' directory' f)) →
        AgreeButOne (partLengths files) (partLengths files') ∨ OneMore files files' ∨
          OneMore files' files → bytes ≠ bytes') := by
  intro files files'
  have hbytes := checksumBytes_eq h
  have hbytes' := checksumBytes_eq h'
  refine ⟨_, _, hbytes, hbytes', by rw [checksum, hbytes]; rfl, by rw [checksum, hbytes']; rfl,
    flatten_parts_inj, ?_⟩
  rintro ⟨f, hf⟩ hlengths hsame
  have hsum := congrArg List.length hsame
  rw [length_flatten_parts, length_flatten_parts] at hsum
  rcases hlengths with hagree | hmore | hmore
  -- equal bytes cut at equal lengths are equal files
  · have hfiles : files = files' := flatten_parts_inj.mpr ⟨hsame, hagree.eq_of_sum hsum⟩
    apply hf
    rw [← mem_contents_iff, ← mem_contents_iff]
    exact iff_of_eq (congrArg (f ∈ ·) hfiles)
  -- with one file more the bytes are more in number
  · exact absurd hsum hmore.sum_lt.ne'
  · exact absurd hsum hmore.sum_lt.ne

/-- Three directories. The file of the second has the content of that of the first in its name, and
that of the third goes on behind it. -/
def lookalikes : FileSystem where
  entries := ⟨[("/d", .directory), ("/d/a", .file "b"), ("/e", .directory), ("/e/ab", .file ""),
    ("/g", .directory), ("/g/a", .file "bc")]⟩
  workingDirectory := "/"

theorem contents_lookalikes : contents lookalikes "/d" = [("a", "b")] ∧
    contents lookalikes "/e" = [("ab", "")] ∧ contents lookalikes "/g" = [("a", "bc")] := by
  decide +kernel

theorem checksum_tells_files_lookalikes :
    lookalikes.find "/d" = .ok .directory ∧ lookalikes.find "/e" = .ok .directory ∧
      lookalikes.find "/g" = .ok .directory ∧
      checksumBytes lookalikes "/d" ≠ checksumBytes lookalikes "/g" ∧
      Holds lookalikes "/d" ("a", "b") ∧ ¬Holds lookalikes "/e" ("a", "b") ∧
      checksumBytes lookalikes "/d" = checksumBytes lookalikes "/e" := by
  obtain ⟨hd, he, hg⟩ := contents_lookalikes
  have hfindd : lookalikes.find "/d" = .ok .directory := by decide
  have hfinde : lookalikes.find "/e" = .ok .directory := by decide
  have hfindg : lookalikes.find "/g" = .ok .directory := by decide
  have hchanged : AgreeButOne (partLengths (contents lookalikes "/d"))
      (partLengths (contents lookalikes "/g")) := by
    rw [hd, hg]
    exact Or.inr ⟨[1], 1, 2, [], by decide, by decide⟩
  have hdiffer : ∃ f, ¬(Holds lookalikes "/d" f ↔ Holds lookalikes "/g" f) := by
    refine ⟨("a", "b"), ?_⟩
    rw [← mem_contents_iff, ← mem_contents_iff, hd, hg]
    decide
  obtain ⟨bytes, bytes', hbytes, hbytes', -, -, -, hne⟩ := checksum_tells_files hfindd hfindg
  have hapart := hne hdiffer (Or.inl hchanged)
  refine ⟨hfindd, hfinde, hfindg, ?_, ?_, ?_, ?_⟩
  · rw [hbytes, hbytes']
    exact fun h => hapart (Except.ok.inj h)
  · rw [← mem_contents_iff, hd]
    decide
  · rw [← mem_contents_iff, he]
    decide
  · rw [checksumBytes_eq hfindd, checksumBytes_eq hfinde, hd, he]
    decide +kernel

end Contents

end ScriptKit.Package
