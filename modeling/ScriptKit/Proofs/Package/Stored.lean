import ScriptKit.Calendar
import ScriptKit.Proofs.FileSystem.Written
import ScriptKit.Proofs.Package.Edited
import ScriptKit.Yaml.Codec

namespace ScriptKit.Calendar

theorem solid_padded (width n : Nat) : Text.Solid (padded width n) := by
  intro c hc
  rw [padded, String.toList_ofList] at hc
  rcases List.mem_append.mp hc with hc | hc
  · rw [List.eq_of_mem_replicate hc]
    decide
  · exact Text.isSpace_of_mem_toDigits (by decide) (by decide) n hc

/-- There is no white space in a time. -/
theorem solid_timestamp (seconds : Nat) : Text.Solid (timestamp seconds) := by
  have hdash : Text.Solid "-" := by decide
  have hcolon : Text.Solid ":" := by decide
  have hbetween : Text.Solid "T" := by decide
  have hzone : Text.Solid "Z" := by decide
  unfold timestamp
  rcases date (seconds / 86400) with ⟨year, month, day⟩
  have hmonth := ((solid_padded 4 year).append hdash).append (solid_padded 2 month)
  have hday := (hmonth.append hdash).append (solid_padded 2 day)
  have hhour := (hday.append hbetween).append (solid_padded 2 (seconds % 86400 / 3600))
  have hminute := (hhour.append hcolon).append (solid_padded 2 (seconds % 86400 / 60 % 60))
  have hsecond := (hminute.append hcolon).append (solid_padded 2 (seconds % 86400 % 60))
  exact hsecond.append hzone

end ScriptKit.Calendar

namespace ScriptKit.Package.Lockfile

open Yaml Decode

variable {yaml : Codec} {doc : Document} {l : Lockfile} {fs written : FileSystem} {path : String}

section Normal

theorem sortPackages_of_sorted {ps : List LockedPackage}
    (h : (ps.map (·.name)).Pairwise (· ≤ ·)) : sortPackages ps = ps :=
  List.mergeSort_of_pairwise ((List.pairwise_map.mp h).imp fun hle => decide_eq_true hle)

/-- What was brought into its normal form stays so. -/
@[simp] theorem normalised_normalised (l : Lockfile) : l.normalised.normalised = l.normalised := by
  have hpackages : l.normalised.packages.map LockedPackage.normalised = l.normalised.packages := by
    have hfixed : ∀ q ∈ l.normalised.packages, q.normalised = id q := by
      intro q hq
      obtain ⟨p, -, rfl⟩ := mem_normalised.mp hq
      exact LockedPackage.normalised_normalised p
    rw [List.map_congr_left hfixed, List.map_id]
  have hsorted : sortPackages l.normalised.packages = l.normalised.packages :=
    sortPackages_of_sorted (Text.pairwise_mergeSort LockedPackage.name _)
  have hroot : canonicalName l.normalised.root = l.normalised.root :=
    canonicalName_canonicalName l.root
  have htool : Text.trim l.normalised.tool = l.normalised.tool := Text.trim_trim l.tool
  rw [normalised, hroot, htool, hpackages, hsorted]

end Normal

section Time

/-- There is no white space at the ends of the time. -/
def Timed (l : Lockfile) : Prop :=
  Text.trim l.generated = l.generated

@[simp] theorem generated_normalised (l : Lockfile) :
    l.normalised.generated = l.generated := by
  rw [normalised]

theorem timed_normalised : l.normalised.Timed ↔ l.Timed := by
  rw [Timed, generated_normalised, Timed]

theorem Timed.setField (h : l.Timed) (field : String) (n : Node) :
    Gives (setField doc l field n) Timed := by
  unfold Lockfile.setField
  split
  · exact .after fun _ => .pure h
  · refine .after fun found => ?_
    split
    · exact .pure h
    · refine .pure ?_
      split
      · exact h
      · exact Text.trim_trim _
      · exact h

theorem timed_of_load (h : load yaml fs path = .ok l) : l.Timed := by
  obtain ⟨doc, place, hd⟩ := exists_decode_of_load h
  have hblank : Timed ⟨place, "", "", "", []⟩ := by
    change Text.trim "" = ""
    decide
  have hrecord : Gives (record doc ["root", "generated", "tool", "packages"] true
      (Lockfile.setField doc) ⟨place, "", "", "", []⟩ doc.root) fun found => ∀ l ∈ found, Timed l :=
    .record (fun _ field n h => h.setField field n) hblank _
  unfold decode at hd
  obtain ⟨found, hfound, rfl⟩ := hrecord.of_map_run hd
  rw [timed_normalised]
  cases found with
  | none => exact hblank
  | some l => exact hfound l rfl

theorem generated_apply (l : Lockfile) (e : Edit) : (e.apply l).generated = l.generated := by
  cases e with
  | upsert p =>
    change (l.upsert p).1.generated = l.generated
    unfold Lockfile.upsert
    split
    · split
      · rfl
      · rfl
    · exact generated_normalised _
  | prune keep => rfl

theorem generated_after : ∀ (edits : List Edit) (l : Lockfile),
    (l.after edits).generated = l.generated
  | [], _ => rfl
  | e :: edits, l => by
    rw [after, List.foldl_cons, ← after, generated_after edits, generated_apply]

/-- A lockfile as a program gets it: a new one, made at some time, or one that was read. -/
inductive Begun (yaml : Codec) : Lockfile → Prop
  | new (root tool : String) (seconds : Nat) :
    Begun yaml (new root tool (Calendar.timestamp seconds))
  | loaded {files : FileSystem} {path : String} {l : Lockfile} (h : load yaml files path = .ok l) :
    Begun yaml l

theorem Begun.timed (h : Begun yaml l) : l.Timed := by
  cases h with
  | new _ _ seconds => exact (Calendar.solid_timestamp seconds).trim_eq
  | loaded h => exact timed_of_load h

theorem Timed.after (h : l.Timed) (edits : List Edit) : (l.after edits).Timed := by
  rw [Timed, generated_after, h]

theorem Timed.prepared {now : String} (h : l.Timed) (hnow : Text.trim now = now)
    (place : String) : (l.prepared place now).Timed := by
  rw [Lockfile.prepared, timed_normalised, Timed]
  split
  · exact hnow
  · exact h

end Time

section Document

theorem decodePackage_packageNode (p : LockedPackage) :
    decodePackage doc (packageNode p) = pure (some p) := by
  change record doc _ true (setPackage doc) _ (.mapping _ (named [("name", textNode p.name),
    ("version", textNode p.version), ("source", textNode p.source),
    ("checksum", textNode p.checksum)])) = _
  rw [record_named _ (by simp) (by simp)]
  simp [setPackage, textNode, string_text]

theorem list_packageNode (ps : List LockedPackage) :
    Decode.list doc (decodePackage doc) (.sequence "!!seq" (ps.map packageNode)) = pure ps := by
  have hitems : (ps.map packageNode).mapM (decodePackage doc) = pure (ps.map some) := by
    induction ps with
    | nil => rfl
    | cons p ps ih =>
      rw [List.map_cons, List.mapM_cons, decodePackage_packageNode, ih]
      rfl
  rw [Decode.list, Document.target_sequence]
  dsimp only
  rw [hitems, pure_bind, List.filterMap_map]
  simp

/-- A lockfile as a document. -/
def toDocument (l : Lockfile) : Document := ⟨l.toNode, []⟩

/-- The document of a lockfile is decoded to what it was made of, in normal form. -/
theorem decode_toDocument (l : Lockfile) (place : String) :
    decode l.toDocument place =
      .ok ({ l with path := place, generated := Text.trim l.generated } : Lockfile).normalised := by
  have hrecord : record l.toDocument ["root", "generated", "tool", "packages"] true
      (setField l.toDocument) ⟨place, "", "", "", []⟩ l.toDocument.root =
        pure (some ⟨place, l.root, Text.trim l.generated, l.tool, l.packages⟩) := by
    change record _ _ true (setField _) _ (.mapping _ (named [("root", textNode l.root),
      ("generated", textNode l.generated), ("tool", textNode l.tool),
      ("packages", .sequence "!!seq" (l.packages.map packageNode))])) = _
    rw [record_named _ (by simp) (by simp)]
    simp [setField, textNode, string_text, list_packageNode]
  rw [decode, hrecord]
  rfl

end Document

section Storing

/-- The text of a lockfile is read as a document that is decoded as the one that was written. -/
def ReadsBack (yaml : Codec) (l : Lockfile) : Prop :=
  ∃ doc, yaml.read (l.render yaml) = some (some doc) ∧
    decode doc l.path = decode l.toDocument l.path

theorem load_of_readsBack (hpath : path ≠ "") (hplace : fs.absolute path = l.path)
    (hread : fs.read l.path = .ok (l.render yaml)) (h : l.ReadsBack yaml) :
    load yaml fs path =
      .ok ({ l with generated := Text.trim l.generated } : Lockfile).normalised := by
  obtain ⟨doc, hdoc, hdecode⟩ := h
  rw [load, if_neg hpath]
  dsimp only
  rw [hplace, hread]
  dsimp only
  rw [parse, hdoc]
  dsimp only
  rw [hdecode, decode_toDocument]

/-- A lockfile is written as it was prepared for its place. -/
theorem save_cases {now : String} {ready : Lockfile}
    (h : save yaml fs now (some l) path = .ok (ready, written)) :
    ∃ target, (if path = "" then l.path else path) = target ∧ target ≠ "" ∧
      ready = l.prepared (fs.absolute target) now ∧
      fs.write (fs.absolute target) (ready.render yaml) = .ok written := by
  unfold save at h
  dsimp only at h
  generalize (if path = "" then l.path else path) = target at h ⊢
  refine ⟨target, rfl, ?_⟩
  split at h
  · cases h
  · rename_i hne
    split at h
    · rename_i hwrite
      cases h
      exact ⟨hne, rfl, hwrite⟩
    · cases h

/-- What is in a lockfile after it was written is read again from the path that it was written
to. -/
theorem load_save {start ready : Lockfile} {edits : List Edit} {seconds : Nat}
    (hrooted : fs.IsRooted) (hstart : start.Begun yaml)
    (hsave : save yaml fs (Calendar.timestamp seconds) (some (start.after edits)) path =
      .ok (ready, written)) (hback : ready.ReadsBack yaml) :
    load yaml written ready.path = .ok ready ∧
      load yaml written (if path = "" then (start.after edits).path else path) = .ok ready := by
  obtain ⟨target, htarget, hne, hready, hwrite⟩ := save_cases hsave
  rw [htarget]
  have hpath : ready.path = fs.absolute target := by rw [hready, prepared, normalised]
  have hplace : Path.isAbsolute ready.path = true :=
    hpath ▸ FileSystem.isAbsolute_absolute hrooted target
  have hclean : Path.clean ready.path = ready.path :=
    hpath ▸ FileSystem.clean_absolute hrooted target
  -- the normal form is made before writing and after reading, so that it must not change twice
  have hnormal : ready.normalised = ready := by rw [hready, prepared, normalised_normalised]
  have htimed : ready.Timed :=
    hready ▸ (hstart.timed.after edits).prepared (Calendar.solid_timestamp seconds).trim_eq _
  have hread : written.read ready.path = .ok (ready.render yaml) :=
    FileSystem.read_of_write hplace hclean (hpath ▸ hwrite)
  -- both paths name the place that was written
  have hload : ∀ p, p ≠ "" → written.absolute p = ready.path →
      load yaml written p = .ok ready := by
    intro p hp habsolute
    rw [load_of_readsBack hp habsolute hread hback, htimed]
    exact congrArg Except.ok hnormal
  have hpresent : ready.path ≠ "" := fun h => absurd hplace (by rw [h]; decide)
  exact ⟨hload ready.path hpresent (FileSystem.absolute_of_clean hplace hclean),
    hload target hne (by rw [FileSystem.absolute_of_write hwrite, hpath])⟩

end Storing

section Sample

/-- A lockfile with one package, as it is written. -/
def onePackage : Lockfile :=
  ⟨"/w/package.lock", "app", "1970-01-01T00:00:00Z", "charly", [⟨"my_lib", "v1", "path:/d", "x"⟩]⟩

theorem readsBack_onePackage : onePackage.ReadsBack codec := by
  have hrun : ((codec.read (onePackage.render codec)).bind id).bind (fun doc =>
      (record doc ["root", "generated", "tool", "packages"] true (setField doc)
        ⟨onePackage.path, "", "", "", []⟩ doc.root).run.toOption) = some (some onePackage) := by
    decide +kernel
  have htrim : Text.trim onePackage.generated = onePackage.generated := by decide
  obtain ⟨doc, hdoc, hrun⟩ := Option.bind_eq_some_iff.mp hrun
  obtain ⟨found, hfound, hdoc⟩ := Option.bind_eq_some_iff.mp hdoc
  refine ⟨doc, hfound.trans (congrArg some hdoc), ?_⟩
  rw [decode_toDocument, htrim, decode, eq_ok_of_toOption hrun]
  rfl

theorem load_save_onePackage :
    ∃ written, (FileSystem.ofLists "/w" [] []).IsRooted ∧
      Begun codec (new "app" " charly" (Calendar.timestamp 0)) ∧
      save codec (.ofLists "/w" [] []) (Calendar.timestamp 60)
        (some ((new "app" " charly" (Calendar.timestamp 0)).after
          [.upsert ⟨"my-lib", " v1", "path:/d", "x"⟩, .prune ["my_lib"]])) "package.lock" =
        .ok (onePackage, written) ∧
      onePackage.ReadsBack codec ∧ load codec written "package.lock" = .ok onePackage := by
  have hrooted : (FileSystem.ofLists "/w" [] []).IsRooted := by
    rw [FileSystem.IsRooted]
    decide +kernel
  have hbegun : Begun codec (new "app" " charly" (Calendar.timestamp 0)) :=
    .new "app" " charly" 0
  -- the edits give the one package, of which saving changes the path and the time
  have hafter : (new "app" " charly" (Calendar.timestamp 0)).after
      [.upsert ⟨"my-lib", " v1", "path:/d", "x"⟩, .prune ["my_lib"]] =
        { onePackage with path := "" } := by
    have hupsert : ((new "app" " charly" (Calendar.timestamp 0)).upsert
        ⟨"my-lib", " v1", "path:/d", "x"⟩).1 = { onePackage with path := "" } := by
      rw [upsert, find?, new, List.find?_nil, normalised, sortPackages, List.nil_append,
        List.map_singleton, List.mergeSort_singleton]
      decide
    rw [after, List.foldl_cons, Edit.apply, hupsert]
    decide
  have hprepared : ({ onePackage with path := "" } : Lockfile).prepared "/w/package.lock"
      (Calendar.timestamp 60) = onePackage := by
    rw [prepared, normalised, sortPackages, onePackage, List.map_singleton,
      List.mergeSort_singleton]
    decide
  obtain ⟨written, hwritten⟩ : ∃ written, save codec (.ofLists "/w" [] []) (Calendar.timestamp 60)
      (some { onePackage with path := "" }) "package.lock" = .ok (onePackage, written) := by
    have hplace : (FileSystem.ofLists "/w" [] []).absolute "package.lock" = "/w/package.lock" := by
      decide +kernel
    have hwrite : ((FileSystem.ofLists "/w" [] []).write "/w/package.lock"
        (onePackage.render codec)).toOption.isSome = true := by
      decide +kernel
    obtain ⟨written, hwritten⟩ := Option.isSome_iff_exists.mp hwrite
    refine ⟨written, ?_⟩
    rw [save]
    dsimp only
    rw [if_neg (by decide), if_neg (by decide), hplace, hprepared, eq_ok_of_toOption hwritten]
  rw [← hafter] at hwritten
  have hload := (load_save hrooted hbegun hwritten readsBack_onePackage).2
  rw [if_neg (by decide)] at hload
  exact ⟨written, hrooted, hbegun, hwritten, readsBack_onePackage, hload⟩

end Sample

end ScriptKit.Package.Lockfile
