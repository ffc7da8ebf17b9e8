import Mathlib
import FactGraph.Proofs.Disk
import FactGraph.Proofs.Interchange
import FactGraph.Proofs.Repair
import FactGraph.Proofs.Task

/-!
# Runs over a journal

All that a run of the program knows of the runs before it is the file of the journal. If the entries
of the file leave the facts of a set, a run does what its task over the set says, and the entries of
the file that it leaves, whether or not it was refused, leave the next set (`Cli.Run.performs`). So
a row of runs over one path cannot be told from the same tasks over a set that begins empty,
although every run reads the file anew (`Cli.obey_set`).
-/

namespace FactGraph

/-! ## Files that keep facts -/

namespace Journal

variable {j : Journal} {es : List Entry} {path file : Text} {s : Store} {S : Finset Fact}

/-- Whether the entries of a file leave the facts of a set, each under its digest. -/
structure Keeps (file : Text) (S : Finset Fact) : Prop where
  /-- Facts are kept under their own digests. -/
  addressed : (Storage.journal (replay [] 0 file)).Addressed
  /-- The facts are those of the set. -/
  content : ∀ f, f ∈ (Storage.journal (replay [] 0 file)).content ↔ f ∈ S

theorem keeps_nil : Keeps [] ∅ := by
  have hnil : (Storage.journal (replay [] 0 [])).cells.items = [] := rfl
  obtain ⟨hs, hcontent⟩ := Store.coherent_of_items_eq_nil hnil
  exact ⟨hs.addressed, fun f => by simpa using hcontent f⟩

/-- On a file that keeps facts a store is opened that represents them. -/
theorem Keeps.exists_opened (h : Keeps file S) (path : Text) (time : UInt64) :
    ∃ s, Store.opened (some (.journal (replay path time file))) = .ok s ∧
      s.storage = .journal (replay path time file) ∧ s.Represents S := by
  obtain ⟨s, hs, hstorage⟩ :=
    Store.exists_rebuild (s := { storage := .journal (replay path time file) }) rfl
  have haddressed : (Storage.journal (replay path time file)).Addressed := h.addressed
  obtain ⟨hcoherent, -⟩ := Store.coherent_of_rebuild haddressed hs
  refine ⟨s, bind_eq_ok.2 ⟨_, hs, rfl⟩, hstorage, hcoherent, ?_, fun f => ?_⟩
  · rw [hstorage]
    exact ⟨rfl, rfl, rfl⟩
  · rw [Store.content, hstorage]
    exact h.content f

/-- Whether a storage is a journal at a path that carries entries. -/
def Stands (path : Text) (s : Storage) : Prop :=
  ∃ j es, s = .journal j ∧ j.path = path ∧ j.Carries es

theorem stands_replay (path : Text) (time : UInt64) (file : Text) :
    Stands path (.journal (replay path time file)) := by
  obtain ⟨parts, es, tail, hparts, rfl, htail⟩ := Entry.exists_row file
  exact ⟨_, es, rfl, rfl, (replay_row hparts htail path time).1⟩

theorem Carries.append (h : j.Carries es) (operation : UInt8) (id : Digest) {t : Text}
    (hfits : t.length < 256 ^ 4 - 64) :
    (j.append (j.nextEntry operation id t)).Carries (es ++ [j.nextEntry operation id t]) :=
  h.extend ((Extends.refl h.isOpen).append hfits)

/-- Every request leaves the journal where it is. -/
theorem Stands.perform (h : Stands path s.storage) (r : Request) :
    Stands path (s.perform r).1.storage := by
  refine Store.perform_induction (P := fun s => Stands path s.storage) r ?_ ?_ ?_ h
  · rintro s s' f id new - ⟨j, es, hj, hpath, hcarries⟩ hinsert
    obtain ⟨hf, -, -, hold, hnew⟩ := Store.insert_eq_ok hinsert
    cases new with
    | false => exact hold rfl ▸ ⟨j, es, hj, hpath, hcarries⟩
    | true =>
      obtain ⟨storage, hput, rfl⟩ := hnew rfl
      obtain ⟨-, -, -, rfl⟩ := Storage.put_eq_ok.1 hput
      have hfits := Encoding.length_factBytes_lt hf.withinLimit
      refine ⟨j.put f.digest (Encoding.factBytes f), _, ?_, hpath, hcarries.append _ _ hfits⟩
      simp only [hj]
      rfl
  · rintro s s' id existed ⟨j, es, hj, hpath, hcarries⟩ hremove
    obtain ⟨-, -, hstorage, -⟩ := Storage.erase_eq_ok.1 (Store.remove_eq_ok hremove).1
    rw [hstorage, hj, Storage.eraseBytes, Journal.erase]
    split
    · exact ⟨_, _, rfl, hpath, hcarries.append _ _ (t := []) (by decide)⟩
    · exact ⟨j, es, rfl, hpath, hcarries⟩
  · rintro s s' count hs hrebuild
    obtain ⟨facts, -, rfl⟩ := Store.rebuild_eq_ok hrebuild
    exact hs

/-- The file of a journal keeps the facts that a store over it represents. -/
theorem keeps_device (hj : j.Carries es) (hs : s.storage = .journal j) (h : s.Represents S) :
    Keeps j.device S := by
  obtain ⟨-, -, htexts, -⟩ := hj.replay [] 0
  have hitems : ∀ e, e ∈ (replay [] 0 j.device).cells.items ↔ e ∈ j.cells.items :=
    fun e => (Storage.items_perm htexts).mem_iff
  have haddressed := h.coherent.addressed
  have hcontent := h.content
  simp only [Store.content, hs] at haddressed hcontent
  refine ⟨fun e he => haddressed e ((hitems e).1 he), fun f => ?_⟩
  rw [← hcontent]
  exact exists_congr fun e => and_congr_left fun _ => hitems e

end Journal

namespace Cli

/-! ## Runs -/

/-- A run of the program. -/
structure Run where
  /-- What it finds around it. -/
  environment : Environment
  /-- The words on the command line. -/
  words : List Text
  /-- The disk that it finds. -/
  disk : Disk

/-- The bytes of the file that a run over the journal at a path finds, once the directories of the
path are made; there are none where the file has to be made. -/
def found? (path : Text) (d : Disk) : Option Text :=
  match makeDirectories .journal path d with
  | (_, some _) => none
  | (d, none) => (d.locate path).fileBytes.toOption

namespace Run

/-- The disk that a run leaves. -/
def left (r : Run) : Disk := (run r.environment r.words r.disk).1

/-- What a run prints, and its exit status. -/
def output (r : Run) : Output := (run r.environment r.words r.disk).2

/-- The options of a run. -/
def options (r : Run) : Except Stop Options := Options.read {} (r.words.map Text.untilNul)

/-- The disk of a run over the journal at a path while the store is open. -/
def opened (path : Text) (r : Run) : Disk :=
  ((Storage.opened .journal path r.environment.time).on
    (makeDirectories .journal path r.disk).1).1

/-- What a run over the journal at a path asks of the stored facts; nothing if the command line
cannot be read. -/
def task (path : Text) (r : Run) : Task :=
  match r.options with
  | .ok o => o.task r.environment.seed (r.opened path)
  | .error _ => .refuse

/-- Whether a run has a command that stores, takes out or shows facts over the journal at a path. A
command line that cannot be read is one too, but not one that asks for help or for the version. -/
def IsPlain (path : Text) (r : Run) : Prop :=
  match r.options with
  | .ok o => o.IsPlain path
  | .error stop => stop ≠ .help ∧ stop ≠ .version

end Run

/-- Whether runs follow one another: each of them finds at the path what the one before it left
there, and the first one what stands there on a disk. Everything else on the disk may have changed
in between. -/
def Follow (path : Text) : Disk → List Run → Prop
  | _, [] => True
  | d, r :: rest => found? path r.disk = found? path d ∧ Follow path r.left rest

/-- Whether runs over the journal at a path do what their tasks over a set say: each of them has the
output that is expected over the set behind the runs before it, and leaves the set as it is if it
exits with the status one. -/
def Obey (path : Text) : Finset Fact → List Run → Prop
  | _, [] => True
  | S, r :: rest => (r.task path).Expects S r.output ∧
      (r.output.status = 0 ∨ r.output.status = 1 ∧ (r.task path).next S = S) ∧
      Obey path ((r.task path).next S) rest

/-! ## The file that a run finds and leaves -/

variable {path file : Text} {d : Disk} {o : Options} {e : Environment}

theorem found?_eq_some : found? path d = some file ↔
    ∃ d', makeDirectories .journal path d = (d', none) ∧ (d'.locate path).fileBytes = .ok file := by
  rw [found?]
  rcases makeDirectories .journal path d with ⟨d', _ | reason⟩
  · cases hfile : (d'.locate path).fileBytes <;> simp [Except.toOption, hfile]
  · simp

theorem grows_makeDirectories (path : Text) (d : Disk) :
    d.Grows (makeDirectories .journal path d).1 := by
  rw [makeDirectories]
  split_ifs
  · exact Disk.Grows.refl d
  · split
    · exact Disk.Grows.refl d
    · next directory _ =>
      have hgrows := Disk.grows_makeDirectories d directory
      split <;> (rename_i heq; rwa [heq] at hgrows)

/-- The directories of a path that leads to a file need not be made. -/
theorem makeDirectories_of_locate (h : (d.locate path).fileBytes = .ok file) :
    makeDirectories .journal path d = (d, none) := by
  rw [makeDirectories]
  split_ifs
  · rfl
  · split
    · rfl
    · next directory hdirectory => rw [Disk.makeDirectories_of_locate h hdirectory]

/-- A file that is written at a path is found by the next run. -/
theorem found?_write (hd : d.HasDirectory d.here) (h : (d.locate path).fileBytes = .ok file)
    (new : Text) : found? path (d.write path new) = some new := by
  have hlocate : ((d.write path new).locate path).fileBytes = .ok new := by
    rw [Disk.locate_write hd h]
    rfl
  exact found?_eq_some.2 ⟨_, makeDirectories_of_locate hlocate, hlocate⟩

theorem on_opened (hpath : path.untilNul = path) (time : UInt64)
    (h : (d.locate path).fileBytes = .ok file) : (Storage.opened .journal path time).on d =
      (d.write path (Journal.replay path time file).device,
        .ok (.journal (Journal.replay path time file))) := by
  have hlocate : (d.locate path.untilNul).fileBytes = .ok file := by rwa [hpath]
  have hopened := Journal.on_openedOnDisk time hlocate
  rw [hpath] at hopened
  rw [Storage.opened, DiskWork.on_bind_of_ok hopened]
  rfl

/-! ## One run -/

/-- A run is refused without opening the store only if its task is refused. -/
theorem early?_of_isPlain (ho : o.IsPlain path) (program : Text) : early? program o = none ∨
    ∃ reason, early? program o = some (.refuse reason) ∧ ∀ seed d, o.task seed d = .refuse := by
  have hcommand := ho.command
  simp only [factCommands, List.mem_cons, List.not_mem_nil, or_false] at hcommand
  rw [early?]
  cases hargument : o.argument with
  | cons c argument =>
    left
    rcases hcommand with hname | hname | hname | hname | hname <;> rw [hname] <;> rfl
  | nil =>
    rcases hcommand with hname | hname | hname | hname | hname <;> rw [hname]
    · exact .inl rfl
    · refine .inr ⟨_, rfl, fun seed d => ?_⟩
      rw [Options.task, hname, Options.removeTask, hargument]
      rfl
    · refine .inr ⟨_, rfl, fun seed d => ?_⟩
      rw [Options.task, hname, Options.importTask, hargument]
      rfl
    · exact .inl rfl
    · exact .inl rfl

theorem rulebook_of_isPlain (ho : o.IsPlain path) : ∃ rules, rulebook o = .ok rules := by
  rw [rulebook, ho.rules, ho.builtin]
  exact ⟨_, rfl⟩

/-- Without a configuration and rules, what comes of a run is what comes of the store. -/
theorem runWith_of_isPlain (ho : o.IsPlain path) (e : Environment) (d : Disk) : ∃ rules,
    runWith e o d = ((runOnStore e o .journal path rules d).1,
      o.output (runOnStore e o .journal path rules d).2) := by
  obtain ⟨rules, hrules⟩ := rulebook_of_isPlain ho
  have hconfig : checkConfig o d = .ok () := by rw [checkConfig, ho.config]; rfl
  have hkind : StorageKind.parse? (o.backend.getD "sqlite") = some .journal := by
    rw [ho.backend]
    rfl
  have hpath : o.path.getD (defaultPath e) = path := by rw [ho.path]; rfl
  refine ⟨rules, ?_⟩
  rw [runWith, hconfig, hkind, hrules, hpath]
  dsimp only
  rcases runOnStore e o .journal path rules d with ⟨d', reason | output⟩ <;> rfl

variable {S : Finset Fact} {V : Set Fact}

/-- What comes of a store that is opened on a file is what the task over the facts of the file says,
and the file that is left keeps the next facts. -/
theorem runOnStore_performs (hpath : path.untilNul = path) (hd : d.HasDirectory d.here)
    (ho : o.IsPlain path) (hfound : found? path d = some file) (hkeeps : Journal.Keeps file S)
    {opened : Disk} (hopened : ((Storage.opened .journal path e.time).on
      (makeDirectories .journal path d).1).1 = opened)
    (hS : ∀ f ∈ S, f ∈ V) (inj : Set.InjOn Fact.digest V)
    (hlimit : (o.task e.seed opened).WithinLimit) (hV : ∀ f ∈ (o.task e.seed opened).facts, f ∈ V)
    (rules : Rulebook) :
    (o.task e.seed opened).Expects S (o.output (runOnStore e o .journal path rules d).2) ∧
      ∃ file', found? path (runOnStore e o .journal path rules d).1 = some file' ∧
        Journal.Keeps file' ((o.task e.seed opened).next S) := by
  obtain ⟨d₁, hmade, hlocate⟩ := found?_eq_some.1 hfound
  have hon := on_opened hpath e.time hlocate
  have hd₁ : d₁.HasDirectory d₁.here := by
    have hgrows := grows_makeDirectories path d
    rw [hmade] at hgrows
    exact hgrows.hasDirectory_here hd
  rw [hmade, hon] at hopened
  subst hopened
  obtain ⟨s, hs, hstorage, hrepresents⟩ := hkeeps.exists_opened path e.time
  -- The command is run over this store, with the disk on which the store was opened.
  let x : Setting :=
    { options := o, rules, program := e.program, seed := e.seed
      disk := d₁.write path (Journal.replay path e.time file).device }
  have hrun : runOnStore e o .journal path rules d =
      ((x.run s).1.storage.leave x.disk, (x.run s).2) := by
    rw [runOnStore, hmade]
    dsimp only
    rw [hon]
    dsimp only
    rw [hs]
  have hperforms : x.Performs s S (o.task e.seed x.disk) (x.run s) :=
    x.performs_task hrepresents ho hS inj hlimit hV
  have hstands : Journal.Stands path (x.run s).1.storage := by
    obtain ⟨q, hq⟩ := hperforms.request
    rw [hq]
    refine Journal.Stands.perform ?_ q
    rw [hstorage]
    exact Journal.stands_replay path e.time file
  obtain ⟨j, es, hj, hjpath, hcarries⟩ := hstands
  have hleft : (x.run s).1.storage.leave x.disk = x.disk.write path j.device := by
    rw [hj, Storage.leave, Journal.leave, hjpath, hpath]
  have hwritten : (x.disk.locate path).fileBytes =
      .ok (Journal.replay path e.time file).device := by
    rw [Disk.locate_write hd₁ hlocate]
    rfl
  have hhere : x.disk.HasDirectory x.disk.here :=
    (Disk.grows_write hd₁ hlocate _).hasDirectory_here hd₁
  rw [hrun, hleft]
  exact ⟨hperforms.expects, j.device, found?_write hhere hwritten j.device,
    Journal.keeps_device hcarries hj hperforms.represents⟩

/-- A run over a file that keeps the facts of a set does what its task over the set says, and leaves
a file that keeps the next set. -/
theorem Run.performs {r : Run} (hpath : path.untilNul = path)
    (hhere : r.disk.HasDirectory r.disk.here) (hr : r.IsPlain path)
    (hfound : found? path r.disk = some file) (hkeeps : Journal.Keeps file S)
    (hS : ∀ f ∈ S, f ∈ V) (inj : Set.InjOn Fact.digest V) (hlimit : (r.task path).WithinLimit)
    (hV : ∀ f ∈ (r.task path).facts, f ∈ V) :
    (r.task path).Expects S r.output ∧ ∃ file', found? path r.left = some file' ∧
      Journal.Keeps file' ((r.task path).next S) := by
  rw [Run.IsPlain] at hr
  rw [Run.task] at hlimit hV ⊢
  cases hoptions : r.options with
  | error stop =>
    have hrun : run r.environment r.words r.disk =
        (r.disk, stop.output r.environment.program.untilNul) := by
      have hread : Options.read {} (r.words.map Text.untilNul) = .error stop := hoptions
      rw [run, hread]
    rw [hoptions] at hr
    rw [Run.output, Run.left, hrun]
    refine ⟨?_, file, hfound, hkeeps⟩
    cases stop with
    | help => exact absurd rfl hr.1
    | version => exact absurd rfl hr.2
    | _ => exact ⟨rfl, rfl⟩
  | ok o =>
    rw [hoptions] at hr hlimit hV
    have hread : Options.read {} (r.words.map Text.untilNul) = .ok o := hoptions
    rcases early?_of_isPlain hr r.environment.program.untilNul with hearly | ⟨reason, hearly, htask⟩
    · obtain ⟨rules, hwith⟩ := runWith_of_isPlain hr { r.environment with
        program := r.environment.program.untilNul
        home := r.environment.home.map Text.untilNul } r.disk
      have hstore := runOnStore_performs hpath hhere hr hfound hkeeps
        (e := { r.environment with
          program := r.environment.program.untilNul
          home := r.environment.home.map Text.untilNul }) rfl hS inj hlimit hV rules
      rw [Run.output, Run.left, run, hread]
      dsimp only
      rw [hearly]
      dsimp only
      rw [hwith]
      exact hstore
    · have hrun : run r.environment r.words r.disk = (r.disk, .refuse reason) := by
        rw [run, hread]
        dsimp only
        rw [hearly]
      rw [Run.output, Run.left, hrun]
      dsimp only
      rw [htask]
      exact ⟨⟨rfl, rfl⟩, file, hfound, hkeeps⟩

/-! ## Runs one after the other -/

theorem obey_of_keeps (hpath : path.untilNul = path) (hfound : found? path d = some file)
    (hkeeps : Journal.Keeps file S) (hS : ∀ f ∈ S, f ∈ V) (inj : Set.InjOn Fact.digest V)
    {runs : List Run} (hfollow : Follow path d runs)
    (hhere : ∀ r ∈ runs, r.disk.HasDirectory r.disk.here) (hplain : ∀ r ∈ runs, r.IsPlain path)
    (hlimit : ∀ r ∈ runs, (r.task path).WithinLimit)
    (hV : ∀ r ∈ runs, ∀ f ∈ (r.task path).facts, f ∈ V) : Obey path S runs := by
  induction runs generalizing d file S with
  | nil => trivial
  | cons r rest ih =>
    rw [List.forall_mem_cons] at hhere hplain hlimit hV
    obtain ⟨hsame, hrest⟩ := hfollow
    obtain ⟨hexpects, file', hleft, hnext⟩ := Run.performs hpath hhere.1 hplain.1
      (hsame.trans hfound) hkeeps hS inj hlimit.1 hV.1
    exact ⟨hexpects, hexpects.status, ih hleft hnext (Task.mem_next hS hV.1) hrest hhere.2 hplain.2
      hlimit.2 hV.2⟩

/-- Runs that store, take out and show facts over the journal at one path, where a file is to be
made or is empty, do what their tasks over a set say that begins empty. -/
theorem obey_set (hpath : 0 ∉ path) (hfound : found? path d = some []) {runs : List Run}
    (hfollow : Follow path d runs) (hhere : ∀ r ∈ runs, r.disk.HasDirectory r.disk.here)
    (hplain : ∀ r ∈ runs, r.IsPlain path) (hlimit : ∀ r ∈ runs, (r.task path).WithinLimit)
    (inj : Set.InjOn Fact.digest {f | ∃ r ∈ runs, f ∈ (r.task path).facts}) :
    Obey path ∅ runs := by
  have huntil : path.untilNul = path := by
    rw [Text.untilNul, List.takeWhile_eq_self_iff]
    intro c hc
    simpa using ne_of_mem_of_not_mem hc hpath
  exact obey_of_keeps huntil hfound Journal.keeps_nil (by simp) inj hfollow hhere hplain hlimit
    fun r hr f hf => ⟨r, hr, hf⟩

/-- Three runs on a disk with a document that states one fact twice. What is to be removed is no
digest; the fact of the document is new, and is present when it is stored once more. -/
theorem obey_set_log :
    let f : Fact := ⟨.named "a", "p", .named "b"⟩
    let d : Disk := ({} : Disk).write "doc" "<a> <p> <b> .\n<a> <p> <b> .\n"
    let call (words : List Text) (d : Disk) : Run :=
      ⟨⟨"nyaya", none, 5, "seed"⟩, words ++ [("--backend" : Text), "log", "--path", "log"], d⟩
    let r₁ := call ["remove", "f"] d
    let r₂ := call ["import", "doc"] r₁.left
    let r₃ := call ["insert", "--subj", "<a>", "--pred", "p", "--obj", "<b>"] r₂.left
    Obey "log" ∅ [r₁, r₂, r₃] ∧ r₁.output.status = 1 ∧
      r₂.output = .print "imported 1 new triples\n" ∧
      r₃.output = .print (f.digest.toHex ++ "  (already present)" ++ "\n") := by
  intro f d call r₁ r₂ r₃
  have htask₁ : r₁.task "log" = .refuse := by decide +kernel
  have htask₂ : r₂.task "log" = .importAll [f, f] := by decide +kernel
  have htask₃ : r₃.task "log" = .insert f := by decide +kernel
  have hf : Store.Storable f := by decide +kernel
  have hhere : ∀ r ∈ [r₁, r₂, r₃], r.disk.HasDirectory r.disk.here := by decide +kernel
  have hplain : ∀ r ∈ [r₁, r₂, r₃], r.IsPlain "log" := by
    have hoptions₁ : r₁.options = .ok { command := "remove", argument := "f", path := some "log"
                                        backend := some "log" } := rfl
    have hoptions₂ : r₂.options = .ok { command := "import", argument := "doc", path := some "log"
                                        backend := some "log" } := rfl
    have hoptions₃ : r₃.options = .ok { command := "insert", subject := "<a>", predicate := "p"
                                        object := "<b>", path := some "log"
                                        backend := some "log" } := rfl
    simp only [List.forall_mem_cons, Run.IsPlain, hoptions₁, hoptions₂, hoptions₃]
    refine ⟨?_, ?_, ?_, by simp⟩ <;>
      exact ⟨by decide +kernel, rfl, rfl, rfl, rfl, rfl, rfl, rfl, rfl⟩
  have hobey : Obey "log" ∅ [r₁, r₂, r₃] := by
    have hfollow : Follow "log" d [r₁, r₂, r₃] := by simp only [Follow, r₁, r₂, r₃, call, and_self]
    refine obey_set (by decide +kernel) (by decide +kernel) hfollow hhere hplain ?_ ?_
    · simp [htask₁, htask₂, htask₃, Task.WithinLimit, hf.withinLimit]
    · simp [htask₁, htask₂, htask₃, Task.facts]
  obtain ⟨h₁, -, h₂, -, h₃, -⟩ := id hobey
  rw [htask₁] at h₁ h₂ h₃
  rw [htask₂] at h₂ h₃
  rw [htask₃] at h₃
  have hcard : ([f, f].toFinset \ Task.refuse.next ∅).card = 1 := by decide
  have hmem : f ∈ (Task.importAll [f, f]).next (Task.refuse.next ∅) := by decide
  refine ⟨hobey, h₁.1, ?_, ?_⟩
  · rw [Task.Expects, hcard] at h₂
    exact h₂
  · rw [Task.Expects, if_pos hf] at h₃
    simp only [hmem, if_true] at h₃
    exact h₃

end Cli
end FactGraph
