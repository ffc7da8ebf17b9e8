import Mathlib
import FactGraph.Cli
import FactGraph.Proofs.Import
import FactGraph.Proofs.Page
import FactGraph.Proofs.Reading
import FactGraph.Proofs.Refinement

/-!
# What a command does to a set of facts

A command that stores, takes out or shows facts asks one thing of the facts that are stored
(`Cli.Task`). What it prints, the status with which it exits and the facts that are stored behind it
depend on the set of these facts alone (`Cli.Task.Expects`, `Cli.Task.next`), and a command that is
refused leaves the set as it is. Over a store that represents a set, every such command comes to one
request and does what the set says (`Cli.Setting.performs_task`).
-/

namespace FactGraph

namespace Cli

/-! ## Tasks -/

/-- What a command asks of the stored facts. -/
inductive Task where
  /-- Nothing, because a field, a digest or a document cannot be read. -/
  | refuse
  /-- To store a fact. -/
  | insert (f : Fact)
  /-- To take out the fact with a digest. -/
  | remove (id : Digest)
  /-- To store the facts of a document. -/
  | importAll (facts : List Fact)
  /-- To show the facts that a query accepts. -/
  | find (q : Query)
  /-- To show the document of all facts. -/
  | exportAll
deriving DecidableEq

/-- Whether a command was refused: it prints nothing but what is wrong. -/
def Output.IsRefusal (o : Output) : Prop := o.status = 1 ∧ o.out = []

namespace Task

/-- The facts that a task mentions. -/
def facts : Task → List Fact
  | insert f => [f]
  | importAll facts => facts
  | find q => q.fact?.toList
  | _ => []

/-- Whether the fields of the facts in a document and of a query are within the limit. A fact that
is over the limit by itself is refused. -/
def WithinLimit : Task → Prop
  | importAll facts => ∀ f ∈ facts, f.WithinLimit
  | find q => (Request.find q).WithinLimit
  | _ => True

/-- The set behind a task. -/
def next (S : Finset Fact) : Task → Finset Fact
  | insert f => if Store.Storable f then Insert.insert f S else S
  | remove id => S.filter fun f => f.digest ≠ id
  | importAll facts => S ∪ facts.toFinset
  | _ => S

/-- Whether a task over a set has an output. -/
def Expects (S : Finset Fact) : Task → Output → Prop
  | refuse, o => o.IsRefusal
  | insert f, o =>
    if Store.Storable f then
      let mark : Text := if f ∈ S then "  (already present)" else ""
      o = .print (f.digest.toHex ++ mark ++ "\n")
    else o.IsRefusal
  | remove id, o =>
    if ∃ f ∈ S, f.digest = id then o = .print ("removed " ++ id.short ++ "\n") else o.IsRefusal
  | importAll facts, o =>
    o = .print ("imported " ++ Text.ofNat (facts.toFinset \ S).card ++ " new triples\n")
  | find q, o => ∃ l : List Fact, (∀ f, f ∈ l ↔ f ∈ S ∧ q.accepts f = true) ∧
      (l.Pairwise fun f g => compare f.digest g.digest = .lt) ∧
      o = .print (l.flatMap Setting.factLine ++ Text.ofNat l.length ++ " of " ++
        Text.ofNat l.length ++ " triples\n")
  | exportAll, o => ∃ l : List Fact, l.Nodup ∧ (∀ f, f ∈ l ↔ f ∈ S) ∧
      o = .print (NTriples.document l)

variable {S : Finset Fact} {t : Task} {o : Output}

/-- A task is refused with the status one and leaves the set as it is, or it is done. -/
theorem Expects.status (h : t.Expects S o) : o.status = 0 ∨ o.status = 1 ∧ t.next S = S := by
  cases t with
  | refuse => exact Or.inr ⟨h.1, rfl⟩
  | insert f =>
    rw [Expects] at h
    split at h
    · exact Or.inl (by rw [h]; rfl)
    · next hf => exact Or.inr ⟨h.1, if_neg hf⟩
  | remove id =>
    rw [Expects] at h
    split at h
    · exact Or.inl (by rw [h]; rfl)
    · next hid => exact Or.inr ⟨h.1, Finset.filter_true_of_mem fun f hf heq => hid ⟨f, hf, heq⟩⟩
  | importAll facts => exact Or.inl (by rw [show o = _ from h]; rfl)
  | find q =>
    obtain ⟨l, -, -, rfl⟩ := h
    exact Or.inl rfl
  | exportAll =>
    obtain ⟨l, -, -, rfl⟩ := h
    exact Or.inl rfl

/-- No task brings facts into the set that it does not mention. -/
theorem mem_next {V : Set Fact} (hS : ∀ f ∈ S, f ∈ V) (ht : ∀ f ∈ t.facts, f ∈ V) :
    ∀ f ∈ t.next S, f ∈ V := by
  intro g hg
  cases t with
  | insert f =>
    rw [next] at hg
    split at hg
    · exact (Finset.mem_insert.1 hg).elim (fun heq => ht g (by simp [facts, heq])) (hS g)
    · exact hS g hg
  | remove id => exact hS g (Finset.mem_of_mem_filter g hg)
  | importAll facts =>
    rcases Finset.mem_union.1 hg with hg | hg
    · exact hS g hg
    · exact ht g (List.mem_toFinset.1 hg)
  | _ => exact hS g hg

end Task

/-! ## Tasks of commands -/

/-- The commands that store, take out or show facts. -/
def factCommands : List Text := ["insert", "remove", "import", "find", "export"]

namespace Options

/-- Whether options ask for one of these commands over the journal at a path, and for nothing that
would change what it does or prints. -/
structure IsPlain (path : Text) (o : Options) : Prop where
  /-- The command is one of these. -/
  command : o.command ∈ factCommands
  /-- The path is given. -/
  path : o.path = some path
  /-- The storage is a journal. -/
  backend : o.backend = some "log"
  /-- There is no configuration. -/
  config : o.config = []
  /-- There are no rules in a file. -/
  rules : o.rules = []
  /-- The standard rules do not apply. -/
  builtin : o.builtin = false
  /-- Facts are shown as text. -/
  json : o.json = false
  /-- All facts are shown. -/
  limit : o.limit = 0
  /-- From the first one on. -/
  offset : o.offset = 0

/-- What storing the fact of the three fields asks. -/
def insertTask (o : Options) : Task :=
  match o.isComplete, o.fact with
  | true, .ok f => .insert f
  | _, _ => .refuse

/-- What taking out the fact with a digest asks. -/
def removeTask (o : Options) : Task := (Digest.ofHex? o.argument).elim .refuse .remove

/-- What storing the facts of a document asks. The labels of the document have nodes that are drawn
from a seed, and the document is read from a disk. -/
def importTask (o : Options) (seed : Text) (d : Disk) : Task :=
  match (d.read? o.argument).map (NTriples.parse (Node.ofLabel seed)) with
  | some (.ok facts) => .importAll facts
  | _ => .refuse

/-- What showing the facts that agree with the fields asks. -/
def findTask (o : Options) : Task :=
  match o.query with
  | .ok q => .find q
  | .error _ => .refuse

/-- What the command that options ask for asks of the stored facts. -/
def task (o : Options) (seed : Text) (d : Disk) : Task :=
  if o.command = "insert" then o.insertTask
  else if o.command = "remove" then o.removeTask
  else if o.command = "import" then o.importTask seed d
  else if o.command = "find" then o.findTask
  else if o.command = "export" then .exportAll
  else .refuse

end Options

/-- The output of a run of which a command is the last step. -/
def Options.output (o : Options) : Except Failure Output → Output
  | .ok output => output
  | .error e => failureOutput o e

namespace Setting

variable {x : Setting} {s : Store} {S : Finset Fact} {V : Set Fact} {path : Text} {t : Task}

/-- Whether what comes of a command over a store is what a task over a set says: the store is the
one behind a request, it represents the set behind the task, and the output is that of the task. -/
structure Performs (x : Setting) (s : Store) (S : Finset Fact) (t : Task) (r : Done) : Prop where
  /-- The store is the one behind a request. -/
  request : ∃ q : Request, r.1 = (s.perform q).1
  /-- It represents the next set. -/
  represents : r.1.Represents (t.next S)
  /-- The output is the one that is expected. -/
  expects : t.Expects S (x.options.output r.2)

/-- A command that is refused leaves the store as it is. -/
theorem performs_refuse (h : s.Represents S) {r : Except Failure Output}
    (hr : (x.options.output r).IsRefusal) : x.Performs s S .refuse (s, r) :=
  ⟨⟨.count, rfl⟩, h, hr⟩

theorem isRefusal_of_storeError (o : Options) (e : StoreError) :
    (o.output (.error (.store e))).IsRefusal := ⟨rfl, rfl⟩

/-! ### Commands that change the store -/

theorem performs_insert (h : s.Represents S) (hjson : x.options.json = false) {f : Fact}
    (hcomplete : x.options.isComplete = true) (hfact : x.options.fact = .ok f)
    (inj : ∀ g ∈ S, g.digest = f.digest → g = f) :
    x.Performs s S (.insert f) (x.insert s) := by
  have hbind : (x.options.fact >>= s.insert) = s.insert f := by rw [hfact]; rfl
  by_cases hf : Store.Storable f
  · obtain ⟨s', hs', hrepresents⟩ := h.insert inj hf
    have hflush : s'.flush = .ok () := hrepresents.writable.flush
    have hinsert : x.insert s = (s', .ok (.print
        (f.digest.toHex ++ (if f ∈ S then "  (already present)" else "" : Text) ++ "\n"))) := by
      rw [Setting.insert, if_pos hcomplete, hbind, hs']
      simp [StoreError.lift, Except.mapError, reading, hflush, plain, hjson, bind, Except.bind]
    rw [hinsert]
    refine ⟨⟨.insert f, ?_⟩, ?_, ?_⟩
    · rw [Store.perform, hs']
      rfl
    · rw [Task.next, if_pos hf]
      exact hrepresents
    · rw [Task.Expects, if_pos hf]
      rfl
  · obtain ⟨e, he, -⟩ := Store.exists_insert_error hf (s := s)
    have hinsert : x.insert s = (s, .error (.store e)) := by
      rw [Setting.insert, if_pos hcomplete, hbind, he]
      rfl
    rw [hinsert]
    refine ⟨⟨.count, rfl⟩, ?_, ?_⟩
    · rw [Task.next, if_neg hf]
      exact h
    · rw [Task.Expects, if_neg hf]
      exact isRefusal_of_storeError _ e

theorem performs_insertTask (h : s.Represents S) (hjson : x.options.json = false)
    (hS : ∀ f ∈ S, f ∈ V) (inj : Set.InjOn Fact.digest V)
    (hV : ∀ f ∈ x.options.insertTask.facts, f ∈ V) :
    x.Performs s S x.options.insertTask (x.insert s) := by
  rw [Options.insertTask] at hV ⊢
  cases hcomplete : x.options.isComplete with
  | false =>
    have hinsert : x.insert s = (s, .ok x.incomplete) := by
      rw [Setting.insert, hcomplete]
      rfl
    rw [hinsert]
    exact performs_refuse h ⟨rfl, rfl⟩
  | true =>
    cases hfact : x.options.fact with
    | error e =>
      have hinsert : x.insert s = (s, .error (.store e)) := by
        rw [Setting.insert, if_pos hcomplete, hfact]
        rfl
      rw [hinsert]
      exact performs_refuse h (isRefusal_of_storeError _ e)
    | ok f =>
      rw [hcomplete, hfact] at hV
      have hf : f ∈ V := hV f (List.mem_singleton_self f)
      exact performs_insert h hjson hcomplete hfact fun g hg heq => inj (hS g hg) hf heq

theorem performs_remove (h : s.Represents S) {id : Digest}
    (hid : Digest.ofHex? x.options.argument = some id) :
    x.Performs s S (.remove id) (x.remove s) := by
  obtain ⟨s', hs', hrepresents⟩ := h.remove id
  have hflush : s'.flush = .ok () := hrepresents.writable.flush
  have hremove : x.remove s = (s', .ok (if ∃ f ∈ S, f.digest = id
      then .print ("removed " ++ id.short ++ "\n")
      else .refuse (x.note ("no triple " ++ id.short)))) := by
    rw [Setting.remove, hid]
    simp only [hs', StoreError.lift, Except.mapError, changing, bind, Except.bind]
    by_cases hmem : ∃ f ∈ S, f.digest = id
    · simp only [hmem, decide_true, if_true, hflush]
      rfl
    · simp only [hmem, decide_false, Bool.false_eq_true, if_false]
      rfl
  rw [hremove]
  refine ⟨⟨.remove id, ?_⟩, hrepresents, ?_⟩
  · rw [Store.perform, hs']
    rfl
  · rw [Task.Expects]
    split
    · rfl
    · exact ⟨rfl, rfl⟩

theorem performs_removeTask (h : s.Represents S) :
    x.Performs s S x.options.removeTask (x.remove s) := by
  rw [Options.removeTask]
  cases hid : Digest.ofHex? x.options.argument with
  | none =>
    have hremove : x.remove s =
        (s, .ok (.refuse (x.note ("not a triple id: " ++ x.options.argument)))) := by
      rw [Setting.remove, hid]
    rw [hremove]
    exact performs_refuse h ⟨rfl, rfl⟩
  | some id => exact performs_remove h hid

theorem performs_importAll (h : s.Represents S) {facts : List Fact} {document : Text}
    (hread : x.disk.read? x.options.argument = some document)
    (hparse : NTriples.parse (Node.ofLabel x.seed) document = .ok facts)
    (hS : ∀ f ∈ S, f ∈ V) (inj : Set.InjOn Fact.digest V) (hV : ∀ f ∈ facts, f ∈ V)
    (hlimit : ∀ f ∈ facts, f.WithinLimit) :
    x.Performs s S (.importAll facts) (x.importFile s) := by
  have hstorable : ∀ f ∈ facts, Store.Storable f := fun f hf =>
    NTriples.storable_of_parse (fun l => Node.noConfusion) hparse hf (hlimit f hf)
  obtain ⟨himported, hnext⟩ := h.importDocument hparse
    (inj.mono fun f hf => hf.elim (hS f) (hV f)) hstorable
  have hflush : (s.insertAll facts).1.flush = .ok () := hnext.writable.flush
  have himport : x.importFile s = ((s.insertAll facts).1, .ok (.print ("imported " ++
      Text.ofNat (facts.toFinset \ S).card ++ " new triples\n"))) := by
    rw [importFile, hread]
    simp [himported, StoreError.lift, Except.mapError, reading, hflush, bind, Except.bind, pure,
      Except.pure]
  rw [himport]
  exact ⟨⟨.insertAll facts, rfl⟩, hnext, rfl⟩

theorem performs_importTask (h : s.Represents S) (hS : ∀ f ∈ S, f ∈ V)
    (inj : Set.InjOn Fact.digest V) (hlimit : (x.options.importTask x.seed x.disk).WithinLimit)
    (hV : ∀ f ∈ (x.options.importTask x.seed x.disk).facts, f ∈ V) :
    x.Performs s S (x.options.importTask x.seed x.disk) (x.importFile s) := by
  rw [Options.importTask] at hlimit hV ⊢
  cases hread : x.disk.read? x.options.argument with
  | none =>
    have himport : x.importFile s =
        (s, .ok (.refuse (x.note ("cannot open " ++ x.options.argument)))) := by
      rw [importFile, hread]
    rw [himport]
    exact performs_refuse h ⟨rfl, rfl⟩
  | some document =>
    simp only [hread, Option.map_some] at hlimit hV ⊢
    cases hparse : NTriples.parse (Node.ofLabel x.seed) document with
    | error e =>
      have himport : x.importFile s = (s, .error (.store e)) := by
        rw [importFile, hread]
        simp only [Store.importDocument, hparse]
        rfl
      rw [himport]
      exact performs_refuse h (isRefusal_of_storeError _ e)
    | ok facts =>
      rw [hparse] at hlimit hV
      exact performs_importAll h hread hparse hS inj hV hlimit

/-! ### Commands that read the store -/

theorem exists_find (h : s.Represents S) {q : Query} (hq : (Request.find q).WithinLimit)
    (inj : ∀ f, q.fact? = some f → ∀ g ∈ S, g.digest = f.digest → g = f) :
    ∃ l, s.find q = .ok l ∧ l.Nodup ∧ ∀ f, f ∈ l ↔ f ∈ S ∧ q.accepts f = true := by
  obtain ⟨l, hl, hnodup, hmem⟩ := h.expects_find inj hq
  refine ⟨l, ?_, hnodup, hmem⟩
  cases hfind : s.find q with
  | error e => simp [hfind, Except.map] at hl
  | ok found => simpa [hfind, Except.map] using hl

theorem ofFacts_all (facts : List Fact) :
    Page.ofFacts 0 0 facts = ⟨Page.byDigest facts, facts.length, false⟩ := by
  have hstart : min (0 : UInt64).toNat facts.length = 0 := Nat.zero_min _
  have hstop : Page.sliceEnd 0 0 facts.length = facts.length := rfl
  have htake : (Page.byDigest facts).take facts.length = Page.byDigest facts :=
    List.take_of_length_le (Page.byDigest_perm facts).length_eq.le
  simp only [Page.ofFacts, hstart, hstop, htake, List.drop_zero, Nat.lt_irrefl, decide_false]

theorem performs_find (h : s.Represents S) (hx : x.options.IsPlain path) {q : Query}
    (hquery : x.options.query = .ok q) (hq : (Request.find q).WithinLimit)
    (inj : ∀ f, q.fact? = some f → ∀ g ∈ S, g.digest = f.digest → g = f) :
    x.Performs s S (.find q) (x.find s) := by
  obtain ⟨l, hl, nodup, hmem⟩ := exists_find h hq inj
  have hlength : (Page.byDigest l).length = l.length := (Page.byDigest_perm l).length_eq
  have hend : Text.ofString " triples" ++ (Text.ofString "" ++ Text.ofString "\n") =
      Text.ofString " triples\n" := by decide +kernel
  have hfind : x.find s = (s, .ok (.print ((Page.byDigest l).flatMap factLine ++
      Text.ofNat (Page.byDigest l).length ++ " of " ++ Text.ofNat (Page.byDigest l).length ++
      " triples\n"))) := by
    simp [Setting.find, reading, hquery, Store.page, hx.limit, hx.offset, hl, ofFacts_all, plain,
      hx.json, hlength, StoreError.lift, Except.mapError, bind, Except.bind, Functor.map,
      Except.map, hend]
  have hdigests : (l.map Fact.digest).Nodup := by
    refine nodup.map_on fun f hf g hg heq => ?_
    exact h.coherent.addressed.injOn_digest ((h.content f).2 ((hmem f).1 hf).1)
      ((h.content g).2 ((hmem g).1 hg).1) heq
  rw [hfind]
  refine ⟨⟨.count, rfl⟩, h, Page.byDigest l, fun f => ?_, Page.pairwise_byDigest hdigests, rfl⟩
  rw [(Page.byDigest_perm l).mem_iff, hmem]

theorem performs_findTask (h : s.Represents S) (hx : x.options.IsPlain path)
    (hS : ∀ f ∈ S, f ∈ V) (inj : Set.InjOn Fact.digest V)
    (hlimit : x.options.findTask.WithinLimit) (hV : ∀ f ∈ x.options.findTask.facts, f ∈ V) :
    x.Performs s S x.options.findTask (x.find s) := by
  rw [Options.findTask] at hlimit hV ⊢
  cases hquery : x.options.query with
  | error e =>
    have hfind : x.find s = (s, .error (.store e)) := by
      rw [Setting.find, hquery]
      rfl
    rw [hfind]
    exact performs_refuse h (isRefusal_of_storeError _ e)
  | ok q =>
    rw [hquery] at hlimit hV
    refine performs_find h hx hquery hlimit fun f hf g hg heq => ?_
    exact inj (hS g hg) (hV f (by simp [Task.facts, hf])) heq

theorem performs_exportAll (h : s.Represents S) :
    x.Performs s S .exportAll (exportAll s) := by
  have hany : (Request.find .any).WithinLimit := by simp [Request.WithinLimit, Query.any]
  obtain ⟨l, hl, nodup, hmem⟩ := exists_find h hany (by simp [Query.any, Query.fact?])
  have hexport : exportAll s = (s, .ok (.print (NTriples.document l))) := by
    simp [exportAll, reading, Store.exportDocument, hl, StoreError.lift, Except.mapError, bind,
      Except.bind, pure, Except.pure]
  rw [hexport]
  refine ⟨⟨.count, rfl⟩, h, l, nodup, fun f => ?_, rfl⟩
  rw [hmem, and_iff_left (Query.accepts_of_isAny rfl f)]

/-! ### All commands -/

/-- Over a store that represents a set, a command does and prints what its task over the set
says. -/
theorem performs_task (h : s.Represents S) (hx : x.options.IsPlain path) (hS : ∀ f ∈ S, f ∈ V)
    (inj : Set.InjOn Fact.digest V) (hlimit : (x.options.task x.seed x.disk).WithinLimit)
    (hV : ∀ f ∈ (x.options.task x.seed x.disk).facts, f ∈ V) :
    x.Performs s S (x.options.task x.seed x.disk) (x.run s) := by
  have hcommand := hx.command
  simp only [factCommands, List.mem_cons, List.not_mem_nil, or_false] at hcommand
  rw [Options.task] at hlimit hV ⊢
  rw [run]
  rcases hcommand with hname | hname | hname | hname | hname <;> rw [hname] at hlimit hV ⊢
  · exact performs_insertTask h hx.json hS inj hV
  · exact performs_removeTask h
  · exact performs_importTask h hS inj hlimit hV
  · exact performs_findTask h hx hS inj hlimit hV
  · exact performs_exportAll h

end Setting
end Cli
end FactGraph
