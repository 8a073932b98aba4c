import Mathlib.Data.List.Forall2
import ScriptKit.Proofs.Package.Locked
import ScriptKit.Proofs.Yaml.Fields
import ScriptKit.Yaml.Codec

namespace ScriptKit.Package

open Yaml Decode

namespace DependencySpec

/-- What a dependency may say about where it comes from. -/
inductive Part
  | git
  | rev
  | tag
  | branch
  | path

namespace Part

/-- The field that a part is read from. -/
def field : Part → String
  | git => "git"
  | rev => "rev"
  | tag => "tag"
  | branch => "branch"
  | path => "path"

def fields : List String := [git, rev, tag, branch, path].map field

theorem mem_fields_iff {name : String} : name ∈ fields ↔ ∃ p : Part, p.field = name := by
  constructor
  · intro h
    obtain ⟨p, -, hp⟩ := List.mem_map.mp h
    exact ⟨p, hp⟩
  · rintro ⟨p, rfl⟩
    exact List.mem_map.mpr ⟨p, by cases p <;> simp, rfl⟩

end Part

/-- The text of a part. -/
def get (d : DependencySpec) : Part → String
  | .git => d.git
  | .rev => d.rev
  | .tag => d.tag
  | .branch => d.branch
  | .path => d.path

def put (d : DependencySpec) (text : String) : Part → DependencySpec
  | .git => { d with git := text }
  | .rev => { d with rev := text }
  | .tag => { d with tag := text }
  | .branch => { d with branch := text }
  | .path => { d with path := text }

@[simp] theorem get_empty (p : Part) : empty.get p = "" := by
  cases p <;> rfl

@[simp] theorem get_put (d : DependencySpec) (text : String) (p : Part) :
    (d.put text p).get p = text := by
  cases p <;> rfl

theorem get_put_of_ne (d : DependencySpec) (text : String) {p q : Part} (h : p ≠ q) :
    (d.put text p).get q = d.get q := by
  cases p <;> cases q <;> first | rfl | exact absurd rfl h

/-- The text of a field among the entries of a mapping: what its first entry says, without white
space at the ends. -/
inductive TextOf (doc : Document) (es : List (Node × Node)) (field : String) : String → Prop
  | given {v : Node} {text : Option String} (hfirst : First doc field es v)
    (htext : Spells doc v text) : TextOf doc es field (Text.trim (text.getD ""))
  | missing (h : ∀ e ∈ es, ¬Named doc e.1 field) : TextOf doc es field ""

/-- What stands for a dependency: nothing, a path, or a mapping with a source and a pin, some of
which may be merged in. -/
inductive Describes (doc : Document) (n : Node) : DependencySpec → Prop
  | null {text : String} (hn : doc.target n = .scalar Tag.null.name text) : Describes doc n .empty
  | path {tag text : String} (hn : doc.target n = .scalar tag text) (h : tag ≠ Tag.null.name) :
    Describes doc n { DependencySpec.empty with path := Text.trim text }
  | mapping {tag : String} {es more : List (Node × Node)} {d : DependencySpec}
    (hn : doc.target n = .mapping tag es) (hmore : doc.Brings es more)
    (h : ∀ p : Part, TextOf doc (es ++ more) p.field (d.get p)) : Describes doc n d

/-- An entry that declares a dependency: its key is the name, up to how it is written. -/
structure Declares (doc : Document) (e : Node × Node) (d : String × DependencySpec) : Prop where
  name : ∃ text, Spells doc e.1 (some text) ∧ d.1 = canonicalName text
  spec : Describes doc e.2 d.2

end DependencySpec

namespace Manifest

open DependencySpec

variable {doc : Document}

section Remembering

theorem setSpec_remembers (d : DependencySpec) (field : String) (n : Node) :
    Remembers (setSpec doc d field n) := by
  refine .bind (.string doc n) fun text => ?_
  split
  · exact .pure
  · exact .pure

theorem decodeSpec_remembers (name : String) (n : Node) :
    Remembers (decodeSpec doc name n) := by
  unfold decodeSpec
  split
  · split
    · exact .pure
    · exact .pure
  · split
    · exact .pure
    · exact .refuse _
  · exact .refuse _
  · exact .refuse _

theorem decodeEntries_remembers : ∀ (es : List (Node × Node)) (t : NameTable DependencySpec),
    Remembers (decodeEntries doc t es)
  | [], _ => .pure
  | (k, v) :: es, t => by
    rw [decodeEntries]
    split
    · refine .bind (.string doc k) fun found => ?_
      dsimp only
      split
      · exact .refuse _
      · exact .bind (decodeSpec_remembers _ v) fun spec => decodeEntries_remembers es _
    · exact .bind .mismatch fun _ => .pure

theorem decodeDependencies_remembers (n : Node) : Remembers (decodeDependencies doc n) := by
  unfold decodeDependencies
  split
  · exact .bind (.string doc n) fun _ => .pure
  · split
    · exact decodeEntries_remembers _ _
    · exact .refuse _

theorem decodeList_remembers (n : Node) : Remembers (decodeList doc n) := by
  unfold decodeList
  split
  · exact .bind (.string doc n) fun _ => .pure
  · split
    · exact .pure
    · exact .bind (.mapM (.string doc) _) fun _ => .pure
    · exact .refuse _
    · exact .pure

theorem setField_remembers (m : Manifest) (field : String) (n : Node) :
    Remembers (setField doc m field n) := by
  unfold setField
  split
  · exact .bind (decodeList_remembers n) fun _ => .pure
  · exact .bind (decodeDependencies_remembers n) fun _ => .pure
  · refine .bind (.string doc n) fun text => ?_
    split
    · exact .pure
    · exact .pure

end Remembering

section Specs

variable {d d' : DependencySpec} {p : Part} {n : Node} {name : String} {es : List (Node × Node)}

theorem setSpec_field (d : DependencySpec) (p : Part) (n : Node) :
    setSpec doc d p.field n = Decode.string doc n >>= fun text =>
      pure (text.elim d fun t => d.put (Text.trim t) p) := by
  refine bind_congr fun text => ?_
  cases text with
  | none => rfl
  | some t => cases p <;> simp [Part.field, put]

theorem reads_setSpec (h : Reads (setSpec doc d p.field n) d') :
    ∃ text, Spells doc n text ∧ d' = text.elim d fun t => d.put (Text.trim t) p := by
  rw [setSpec_field] at h
  obtain ⟨text, htext, h⟩ := h.of_bind fun _ => .pure
  cases h
  exact ⟨text, reads_string_iff.mp htext, rfl⟩

theorem onlyBy_get (p : Part) : OnlyBy Part.fields (setSpec doc) (·.get p) p.field := by
  intro d other n d' hother hne h
  obtain ⟨q, rfl⟩ := Part.mem_fields_iff.mp hother
  obtain ⟨text, -, rfl⟩ := reads_setSpec h
  cases text with
  | none => rfl
  | some t =>
    refine get_put_of_ne d _ ?_
    rintro rfl
    exact hne rfl

/-- Each part of a dependency is the text of its field. -/
theorem textOf_of_assigns {done : List String}
    (h : Assigns doc Part.fields (setSpec doc) ([], .empty) es (done, d)) (p : Part) :
    TextOf doc es p.field (d.get p) := by
  by_cases hnamed : ∃ v, First doc p.field es v
  · obtain ⟨v, hfirst⟩ := hnamed
    obtain ⟨a, b, ha, hb, hd⟩ := h.get_of_first (onlyBy_get p) (Part.mem_fields_iff.mpr ⟨p, rfl⟩)
      List.not_mem_nil hfirst
    obtain ⟨text, htext, rfl⟩ := reads_setSpec hb
    have hvalue : d.get p = Text.trim (text.getD "") := by
      rw [hd]
      cases text with
      | none => exact ha.trans (get_empty p)
      | some t => exact get_put a _ p
    rw [hvalue]
    exact .given hfirst htext
  · have hnone : ∀ e ∈ es, ¬Named doc e.1 p.field := fun e he hk =>
      hnamed (First.exists_of_mem hk he)
    have hvalue : d.get p = "" := (h.get_eq (onlyBy_get p) (Or.inr hnone)).trans (get_empty p)
    rw [hvalue]
    exact .missing hnone

theorem describes_of_decodeSpec (h : Reads (decodeSpec doc name n) d) : Describes doc n d := by
  unfold decodeSpec at h
  split at h
  · rename_i hn
    split at h
    · rename_i htag
      cases h
      exact .null (htag ▸ hn)
    · rename_i htag
      cases h
      exact .path hn htag
  · rename_i hn
    split at h
    · rename_i hrun
      cases h
      obtain ⟨d, more, rfl, hmore, ⟨done, hassigns⟩, -⟩ :=
        (run_eq_ok_iff.mp hrun).record setSpec_remembers (Document.target_mapping _)
      exact .mapping hn hmore (textOf_of_assigns hassigns)
    · exact absurd h not_reads_refuse
  · exact absurd h not_reads_refuse
  · exact absurd h not_reads_refuse

end Specs

section Tables

variable {m m' : Manifest} {n : Node} {t t' : NameTable DependencySpec} {es : List (Node × Node)}

/-- Every entry declares a dependency, and goes into the table under its name. -/
theorem declared_of_decodeEntries : ∀ {es : List (Node × Node)} {t : NameTable DependencySpec},
    Reads (decodeEntries doc t es) t' → ∃ declared, List.Forall₂ (Declares doc) es declared ∧
      t' = declared.foldl (fun t d => t.insert d.1 d.2) t
  | [], t, h => by
    cases h
    exact ⟨[], .nil, rfl⟩
  | (k, v) :: es, t, h => by
    rw [decodeEntries] at h
    split at h
    · obtain ⟨found, hfound, h⟩ := h.of_bind fun found => by
        dsimp only
        split
        · exact .refuse _
        · exact .bind (decodeSpec_remembers _ v) fun _ => decodeEntries_remembers _ _
      dsimp only at h
      split at h
      · exact absurd h not_reads_refuse
      -- the key has a text, since an empty name is refused
      · rename_i hname
        obtain ⟨spec, hspec, h⟩ := h.of_bind fun _ => decodeEntries_remembers _ _
        obtain ⟨declared, hdeclared, htable⟩ := declared_of_decodeEntries h
        cases found with
        | none => exact absurd (by decide) hname
        | some key =>
          have hdeclares : Declares doc (k, v) (canonicalName key, spec) :=
            ⟨⟨key, reads_string_iff.mp hfound, rfl⟩, describes_of_decodeSpec hspec⟩
          exact ⟨_ :: declared, .cons hdeclares hdeclared, htable⟩
    · exact absurd h (not_reads_mismatch fun _ => .pure)

theorem declared_of_decodeDependencies {tag : String} (hn : doc.target n = .mapping tag es)
    (h : Reads (decodeDependencies doc n) t) :
    ∃ declared, List.Forall₂ (Declares doc) es declared ∧ t = .ofList declared := by
  have hnull : ¬isNull doc n = true := by simp [isNull, hn]
  rw [decodeDependencies, if_neg hnull, hn] at h
  exact declared_of_decodeEntries h

theorem reads_setField_dependencies (h : Reads (setField doc m "dependencies" n) m') :
    Reads (decodeDependencies doc n) m'.dependencies := by
  obtain ⟨t, ht, h⟩ := h.of_bind fun _ => .pure
  cases h
  exact ht

theorem onlyBy_dependencies (fields : List String) :
    OnlyBy fields (setField doc) Manifest.dependencies "dependencies" := by
  intro m other n m' _ hne h
  unfold setField at h
  split at h
  · obtain ⟨items, -, h⟩ := h.of_bind fun _ => .pure
    cases h
    rfl
  · exact absurd rfl hne
  · obtain ⟨text, -, h⟩ := h.of_bind fun text => by
      split
      · exact .pure
      · exact .pure
    split at h
    · cases h
      rfl
    · cases h
      split <;> rfl

end Tables

section Documents

variable {yaml : Codec} {fs : FileSystem} {path : String} {m : Manifest}

/-- The entries of the mapping in which a document gives its dependencies: that of its own, or else
the first that is merged in. -/
inductive Lists (doc : Document) (entries : List (Node × Node)) : Prop
  | own {tag mtag : String} {k v : Node} {es : List (Node × Node)}
    (hroot : doc.target doc.root = .mapping tag es) (hk : Named doc k "dependencies")
    (hmem : (k, v) ∈ es) (hv : doc.target v = .mapping mtag entries)
  | merged {tag mtag : String} {v : Node} {es more : List (Node × Node)}
    (hroot : doc.target doc.root = .mapping tag es)
    (hnone : ∀ e ∈ es, ¬Named doc e.1 "dependencies") (hmore : doc.Brings es more)
    (hfirst : First doc "dependencies" more v) (hv : doc.target v = .mapping mtag entries)

theorem name_ne_of_issues (h : m.issues = []) : m.name ≠ "" := by
  intro hname
  unfold issues at h
  dsimp only at h
  rw [if_pos hname] at h
  cases h

/-- The dependencies of a manifest that is accepted make up its table in the order of its document,
so that of entries with one name the last one counts. All are kept if no name comes with two
different sources or pins. -/
theorem dependencies_of_load (h : load yaml fs path = .ok m) :
    ∃ text doc, fs.read (fs.absolute path) = .ok text ∧ yaml.read text = some (some doc) ∧
      ∀ entries, Lists doc entries →
        ∃ declared, List.Forall₂ (Declares doc) entries declared ∧
          (∀ name, m.dependencies.find? name = declared.reverse.lookup name) ∧
          ((∀ d ∈ declared, m.dependencies.find? d.1 = some d.2) ↔
            ∀ d ∈ declared, ∀ e ∈ declared, d.1 = e.1 → d = e) := by
  obtain ⟨text, doc, htext, hdoc, hdecode, hissues⟩ := document_of_load h
  refine ⟨text, doc, htext, hdoc, fun entries hlists => ?_⟩
  obtain ⟨found, hreads, rfl⟩ := reads_of_map_run hdecode
  cases found with
  | none =>
    -- a document that is no mapping gives no name
    exact absurd rfl (name_ne_of_issues hissues)
  | some m =>
    obtain ⟨tag, es, hroot⟩ := hreads.mapping_of_record
    obtain ⟨m', more, hm, hmore, ⟨done, hassigns⟩, hown⟩ := hreads.record setField_remembers hroot
    cases hm
    obtain ⟨v, mtag, hv, hfirst⟩ : ∃ v mtag, doc.target v = .mapping mtag entries ∧
        First doc "dependencies" (es ++ more) v := by
      cases hlists with
      | own hroot' hk hmem hv =>
        cases hroot.symm.trans hroot'
        exact ⟨_, _, hv, hown _ _ _ (by simp) hmem hk⟩
      | merged hroot' hnone hmore' hmerged hv =>
        cases hroot.symm.trans hroot'
        obtain rfl := hmore.unique hmore'
        exact ⟨_, _, hv, hmerged.after hnone⟩
    obtain ⟨a, b, -, hb, hvalue⟩ :=
      hassigns.get_of_first (onlyBy_dependencies _) (by simp) List.not_mem_nil hfirst
    obtain ⟨declared, hdeclared, htable⟩ :=
      declared_of_decodeDependencies hv (reads_setField_dependencies hb)
    have hdependencies : m.dependencies = .ofList declared := hvalue.trans htable
    refine ⟨declared, hdeclared, ?_, ?_⟩
    · intro name
      exact (congrArg (·.find? name) hdependencies).trans NameTable.find?_ofList
    · change (∀ d ∈ declared, m.dependencies.find? d.1 = some d.2) ↔ _
      rw [hdependencies]
      exact NameTable.holds_ofList_iff

/-- The entries of the mapping under a key that is plain text. -/
def entriesAt? (key : String) : Node → Option (List (Node × Node))
  | .mapping _ es => es.findSome? fun
    | (.scalar tag text, .mapping _ entries) =>
      if tag = Tag.text.name ∧ text = key then some entries else none
    | _ => none
  | _ => none

theorem lists_of_entriesAt? {entries : List (Node × Node)}
    (h : entriesAt? "dependencies" doc.root = some entries) : Lists doc entries := by
  unfold entriesAt? at h
  split at h
  · rename_i hroot
    obtain ⟨⟨k, v⟩, hmem, h⟩ := List.exists_of_findSome?_eq_some h
    split at h
    · rename_i hentry
      cases hentry
      split at h
      · rename_i hkey
        obtain ⟨rfl, rfl⟩ := hkey
        cases h
        have htarget := congrArg doc.target hroot
        refine .own htarget ⟨isMergeKey_text _, ?_⟩ hmem (Document.target_mapping _)
        rw [Spells, string_text]
        exact reads_pure_iff.mpr rfl
      · cases h
    · cases h
  · cases h

/-- A package that gives two dependencies names that differ in how they are spelled only. -/
def twoSpellings : FileSystem :=
  .ofLists "/w" [("/w/package.yml", "name: a\ndependencies:\n  a-b: x\n  a_b: y\n")] []

/-- Of the two entries one is left. -/
theorem dependencies_of_load_twoSpellings :
    ∃ m text doc entries declared, load codec twoSpellings "package.yml" = .ok m ∧
      twoSpellings.read (twoSpellings.absolute "package.yml") = .ok text ∧
      codec.read text = some (some doc) ∧ Lists doc entries ∧ entries.length = 2 ∧
      List.Forall₂ (Declares doc) entries declared ∧
      (∀ name, m.dependencies.find? name = declared.reverse.lookup name) ∧
      ((∀ d ∈ declared, m.dependencies.find? d.1 = some d.2) ↔
        ∀ d ∈ declared, ∀ e ∈ declared, d.1 = e.1 → d = e) ∧
      m.dependencies.entries = [("a_b", ⟨"", "", "", "", "y"⟩)] := by
  have hrun : ((load codec twoSpellings "package.yml").toOption.map (·.dependencies.entries)) =
      some [("a_b", ⟨"", "", "", "", "y"⟩)] := by
    decide +kernel
  have hlength : ((twoSpellings.read (twoSpellings.absolute "package.yml")).toOption.bind
      fun text => (codec.read text).bind fun found => found.bind fun doc =>
        (entriesAt? "dependencies" doc.root).map List.length) = some 2 := by
    decide +kernel
  obtain ⟨m, hm, htable⟩ := Option.map_eq_some_iff.mp hrun
  have hload := eq_ok_of_toOption hm
  obtain ⟨text, doc, htext, hdoc, hall⟩ := dependencies_of_load hload
  rw [htext, Except.toOption, Option.bind_some, hdoc, Option.bind_some, Option.bind_some]
    at hlength
  obtain ⟨entries, hentries, hlength⟩ := Option.map_eq_some_iff.mp hlength
  have hlists := lists_of_entriesAt? hentries
  obtain ⟨declared, hdeclared, hfind, hkept⟩ := hall entries hlists
  exact ⟨m, text, doc, entries, declared, hload, htext, hdoc, hlists, hlength,
    hdeclared, hfind, hkept, htable⟩

end Documents

end Manifest

end ScriptKit.Package
