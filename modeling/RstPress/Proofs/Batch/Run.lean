import Mathlib.Data.List.Pairwise
import RstPress.Cli.Run
import RstPress.Proofs.Batch.Pages
import RstPress.Proofs.Batch.Reading
import RstPress.Proofs.Disk.Filling

/-!
A whole batch. The pages of the inputs that parse are written, each at its own place, and all else stays.
If the inputs have no stems of their own, or one of them leads to no text, nothing is written.
-/

namespace RstPress

/-- Sources that are rendered at the same time have the same pages as if one was rendered after another. -/
theorem renderBatch_eq_map {libraries : Libraries} (keeps : libraries.KeepsOrder) (reading : ReadOptions)
    (rendering : RenderOptions) (sources : List String) :
    renderBatch libraries reading rendering sources = sources.map (renderSource reading rendering) := by
  unfold renderBatch
  split
  · obtain ⟨same, placed⟩ := keeps (renderSource reading rendering) sources
    refine List.ext_getElem? fun place => ?_
    rw [List.getElem?_map]
    cases found : sources[place]? with
    | none =>
      rw [Option.map_none, List.getElem?_eq_none_iff, same]
      exact List.getElem?_eq_none_iff.mp found
    | some source => exact placed place source found
  · rfl

theorem Libraries.keepsOrder_withTasks (jsonReason : String → String) :
    (withTasks jsonReason).KeepsOrder := by
  intro work texts
  have same : (withTasks jsonReason).mapAtOnce work texts = texts.map work := List.map_map
  rw [same]
  exact ⟨List.length_map work, fun place text found => by rw [List.getElem?_map, found, Option.map_some]⟩

end RstPress

namespace RstPress.Cli

theorem World.writeFile_of_takesFile {world : World} {path : String} {place : Location}
    (takes : world.disk.TakesFile path place) (text : String) :
    world.writeFile path text =
      (.ok (), { world with disk := world.disk.put place (.file text.toUTF8) }) := by
  unfold World.writeFile
  rw [takes.1]
  simp only
  split
  · next device found => exact absurd found (takes.2 device)
  · rfl

theorem Task.run_writeFile (path text : String) (world : World) :
    Program.run (ExceptT.run (Task.writeFile path text)) world =
      ((world.writeFile path text).1.mapError FileError.message, (world.writeFile path text).2) := rfl

/-- The entries are the pages of a batch, each with its path. -/
abbrev Entries := List (String × Except Error String)

namespace Entries

/-- No other path leads to where this one leads. -/
def Alone (entries : Entries) (disk : Disk) (path : String) : Prop :=
  ∀ entry ∈ entries, entry.1 ≠ path → ∀ place, disk.Leads path place → ¬disk.Leads entry.1 place

theorem Alone.tail {entries : Entries} {entry : String × Except Error String} {disk : Disk} {path : String}
    (alone : Alone (entry :: entries) disk path) : Alone entries disk path :=
  (List.forall_mem_cons.mp alone).2

/-- What becomes of a disk when the pages that could be rendered are written. -/
structure Wrote (entries : Entries) (old new : Disk) : Prop where
  fills : old.Fills new
  pages : ∀ path page, (path, .ok page) ∈ entries → Alone entries old path →
    new.stored? path = some page.toUTF8
  others : ∀ place, new.find? place ≠ old.find? place →
    ∃ entry ∈ entries, entry.2.isOk ∧ old.Leads entry.1 place

namespace Wrote
variable {entries : Entries} {old new : Disk} {path page : String}

theorem nil (disk : Disk) : Wrote [] disk disk :=
  ⟨.refl disk, fun _ _ member => absurd member List.not_mem_nil, fun _ changed => absurd rfl changed⟩

theorem skip (wrote : Wrote entries old new) (path : String) (reason : Error) :
    Wrote ((path, .error reason) :: entries) old new := by
  refine ⟨wrote.fills, fun other page member alone => ?_, fun place changed => ?_⟩
  · rcases List.mem_cons.mp member with same | later
    · cases same
    · exact wrote.pages other page later alone.tail
  · obtain ⟨entry, member, rendered, leads⟩ := wrote.others place changed
    exact ⟨entry, List.mem_cons_of_mem _ member, rendered, leads⟩

theorem write {place : Location} (takes : old.TakesFile path place) (fresh : path ∉ entries.map Prod.fst)
    (wrote : Wrote entries (old.put place (.file page.toUTF8)) new) :
    Wrote ((path, .ok page) :: entries) old new := by
  have fills := takes.fills page.toUTF8
  refine ⟨fills.trans wrote.fills, fun other text member alone => ?_, fun other changed => ?_⟩
  · rcases List.mem_cons.mp member with same | later
    · cases same
      have leads : new.Leads path place := (fills.trans wrote.fills).walk_eq_ok_iff.mpr takes.leads
      rw [Disk.stored?_of_leads leads, Disk.content?_eq_some_iff]
      -- Had the page been lost, a later path would lead to its place.
      by_contra lost
      rw [← Disk.find?_put old place] at lost
      obtain ⟨entry, later, _, leads⟩ := wrote.others place lost
      have distinct : entry.1 ≠ path := fun same => fresh (List.mem_map.mpr ⟨entry, later, same⟩)
      exact alone.tail entry later distinct place takes.leads (fills.walk_eq_ok_iff.mp leads)
    · refine wrote.pages other text later fun entry present distinct place one two => ?_
      exact alone.tail entry present distinct place (fills.walk_eq_ok_iff.mp one)
        (fills.walk_eq_ok_iff.mp two)
  · by_cases same : other = place
    · exact ⟨_, List.mem_cons_self, rfl, same ▸ takes.leads⟩
    · rw [← Disk.find?_put_of_ne old same (.file page.toUTF8)] at changed
      obtain ⟨entry, member, rendered, leads⟩ := wrote.others other changed
      exact ⟨entry, List.mem_cons_of_mem _ member, rendered, fills.walk_eq_ok_iff.mp leads⟩

/-- A page that could not be rendered leaves its path as it was. -/
theorem untouched (wrote : Wrote entries old new) (apart : (entries.map Prod.fst).Nodup) {reason : Error}
    (member : (path, .error reason) ∈ entries) (alone : Alone entries old path) :
    new.stored? path = old.stored? path := by
  refine wrote.fills.stored?_eq fun place leads => ?_
  by_contra changed
  obtain ⟨entry, present, rendered, also⟩ := wrote.others place changed
  have distinct : entry.1 ≠ path := by
    intro same
    cases List.inj_on_of_nodup_map apart present member same
    cases rendered
  exact alone entry present distinct place leads also

end Wrote

end Entries

theorem run_writePages {entries : Entries} {world : World}
    (ready : ∀ entry ∈ entries, entry.2.isOk → ∃ place, world.disk.TakesFile entry.1 place)
    (apart : (entries.map Prod.fst).Nodup) :
    ∃ disk, Program.run (ExceptT.run (writePages entries)) world =
        (.ok (entries.countP fun entry => !entry.2.isOk), { world with disk }) ∧
      entries.Wrote world.disk disk := by
  induction entries generalizing world with
  | nil => exact ⟨world.disk, rfl, .nil world.disk⟩
  | cons entry entries ih =>
    obtain ⟨path, result⟩ := entry
    obtain ⟨first, later⟩ := List.forall_mem_cons.mp ready
    obtain ⟨fresh, rest⟩ := List.nodup_cons.mp apart
    cases result with
    | error reason =>
      obtain ⟨disk, ran, wrote⟩ := ih later rest
      refine ⟨disk, ?_, wrote.skip path reason⟩
      rw [writePages, Task.run_bind, ran, List.countP_cons_of_pos rfl]
      rfl
    | ok page =>
      obtain ⟨place, takes⟩ := first rfl
      -- The other pages are written on a disk that has this one, where all paths lead as before.
      have fills := takes.fills page.toUTF8
      obtain ⟨disk, ran, wrote⟩ :=
        @ih { world with disk := world.disk.put place (.file page.toUTF8) }
          (fun entry member rendered => (later entry member rendered).imp fun _ => fills.takesFile) rest
      refine ⟨disk, ?_, wrote.write takes fresh⟩
      rw [writePages, Task.run_bind, Task.run_writeFile, World.writeFile_of_takesFile takes]
      simp only [Except.mapError]
      rw [ran, List.countP_cons_of_neg Bool.false_ne_true]

theorem Task.run_ofResult {α : Type} (result : Except String α) (world : World) :
    Program.run (ExceptT.run (Task.ofResult result)) world = (result, world) := rfl

theorem Task.run_makeFolders (folder : String) (world : World) :
    Program.run (ExceptT.run (Task.makeFolders folder)) world =
      ((world.makeFolders folder).1.mapError FileError.message, (world.makeFolders folder).2) := rfl

theorem Task.run_print (text : String) (world : World) :
    Program.run (ExceptT.run (Task.print text)) world = (.ok (), world.print text) := rfl

section Batch
variable {libraries : Libraries} {inputs : List String} {folder : String} {indent : Nat} {strict sequential : Bool}
variable {world made read after : World}

theorem run_batch_of_refused (shared : ¬HaveOwnStems inputs) : ∃ message,
    Program.run (ExceptT.run (batch libraries inputs folder indent strict sequential)) world =
      (.error message, world) := by
  cases paths : pagePaths folder [] inputs with
  | error message =>
    refine ⟨message, ?_⟩
    rw [batch, Task.run_bind, Task.run_ofResult, paths]
  | ok pages => exact absurd (.of_pagePaths paths) shared

theorem run_batch_of_unread (own : HaveOwnStems inputs) (makes : world.makeFolders folder = (.ok (), made))
    {message : String}
    (ran : Program.run (ExceptT.run (inputs.mapM Task.readFile)) made = (.error message, read)) :
    Program.run (ExceptT.run (batch libraries inputs folder indent strict sequential)) world =
      (.error message, read) := by
  rw [batch, Task.run_bind, Task.run_ofResult, own.pagePaths]
  simp only
  rw [Task.run_bind, Task.run_makeFolders, makes]
  simp only [Except.mapError]
  rw [Task.run_bind, ran]

/-- The number of sources that do not parse. -/
def failures (strict : Bool) (sources : List String) : Nat :=
  sources.countP fun source => !(parse { strict } source).isOk

/-- The pages of the inputs, given what is read from them. -/
def pagesOf (folder : String) (indent : Nat) (strict : Bool) (inputs sources : List String) : Entries :=
  (inputs.zip sources).map fun entry =>
    (pageOf folder entry.1, renderSource { strict } { indent } entry.2)

theorem run_batch_of_read (keeps : libraries.KeepsOrder) (own : HaveOwnStems inputs)
    (makes : world.makeFolders folder = (.ok (), made)) {sources : List String} {failed : Nat}
    (ran : Program.run (ExceptT.run (inputs.mapM Task.readFile)) made = (.ok sources, read))
    (wrote : Program.run (ExceptT.run (writePages (pagesOf folder indent strict inputs sources))) read =
      (.ok failed, after)) :
    Program.run (ExceptT.run (batch libraries inputs folder indent strict sequential)) world =
      (if failed = 0 then .ok () else
          .error (failed.repr ++ " of " ++ inputs.length.repr ++ " files failed"),
        after.print (String.join (["", "Done! " ++ (inputs.length - failed).repr ++ " rendered, " ++
          failed.repr ++ " failed"].map (· ++ "\n")))) := by
  have same : (inputs.map (pageOf folder)).zip
      (renderBatch libraries { strict } { indent, parallel := !sequential } sources) =
        pagesOf folder indent strict inputs sources := by
    rw [renderBatch_eq_map keeps]
    exact List.zip_map
  rw [batch, Task.run_bind, Task.run_ofResult, own.pagePaths]
  simp only
  rw [Task.run_bind, Task.run_makeFolders, makes]
  simp only [Except.mapError]
  rw [Task.run_bind, ran]
  simp only
  rw [same, Task.run_bind, wrote]
  simp only
  rw [Task.run_bind, printLines, Task.run_print]
  simp only
  by_cases none : failed = 0
  · rw [if_pos none, if_neg (by omega)]
    rfl
  · rw [if_neg none, if_pos (Nat.pos_of_ne_zero none)]
    rfl

end Batch

section Pages
variable {folder : String} {indent : Nat} {strict : Bool} {inputs sources : List String}

theorem isOk_renderSource (reading : ReadOptions) (rendering : RenderOptions) (source : String) :
    (renderSource reading rendering source).isOk = (parse reading source).isOk := by
  unfold renderSource
  cases parse reading source <;> rfl

theorem mem_pagesOf (folder : String) (indent : Nat) (strict : Bool) {entry : String × String}
    (member : entry ∈ inputs.zip sources) :
    (pageOf folder entry.1, renderSource { strict } { indent } entry.2) ∈
      pagesOf folder indent strict inputs sources := List.mem_map.mpr ⟨entry, member, rfl⟩

theorem nodup_pagesOf (own : HaveOwnStems inputs) (same : inputs.length = sources.length) :
    ((pagesOf folder indent strict inputs sources).map Prod.fst).Nodup := by
  have whole : (inputs.zip sources).map Prod.fst = inputs := List.map_fst_zip same.le
  have paths : (pagesOf folder indent strict inputs sources).map Prod.fst = inputs.map (pageOf folder) := by
    conv_rhs => rw [← whole, List.map_map]
    rw [pagesOf, List.map_map]
    rfl
  rw [paths]
  exact own.nodup_pages folder

theorem alone_pagesOf {disk : Disk} {input : String} (alone : HasOwnPage disk folder inputs input) :
    (pagesOf folder indent strict inputs sources).Alone disk (pageOf folder input) := by
  intro entry member distinct
  obtain ⟨pair, present, rfl⟩ := List.mem_map.mp member
  exact alone pair.1 (List.of_mem_zip present).1 fun same => distinct (congrArg (pageOf folder) same)

theorem countP_pagesOf (same : inputs.length = sources.length) :
    ((pagesOf folder indent strict inputs sources).countP fun entry => !entry.2.isOk) =
      failures strict sources := by
  have whole : (inputs.zip sources).map Prod.snd = sources := List.map_snd_zip same.ge
  rw [failures]
  conv_rhs => rw [← whole]
  rw [pagesOf, List.countP_map, List.countP_map]
  congr 1
  funext entry
  exact congrArg not (isOk_renderSource _ _ _)

end Pages

/-- A batch ends with all pages written if there is room for those of the sources that parse. -/
theorem run_batch_of_ready {libraries : Libraries} {world made read : World} {folder : String}
    {inputs sources : List String} {indent : Nat} {strict sequential : Bool}
    (keeps : libraries.KeepsOrder) (own : HaveOwnStems inputs)
    (makes : world.makeFolders folder = (.ok (), made))
    (found : Program.run (ExceptT.run (inputs.mapM Task.readFile)) made = (.ok sources, read))
    (drained : made.Drained read) (same : inputs.length = sources.length)
    (ready : ∀ entry ∈ inputs.zip sources, (parse { strict } entry.2).isOk →
      ∃ place, made.disk.TakesFile (pageOf folder entry.1) place) :
    ∃ disk, Program.run (ExceptT.run (batch libraries inputs folder indent strict sequential)) world =
        (if failures strict sources = 0 then .ok () else
            .error ((failures strict sources).repr ++ " of " ++ inputs.length.repr ++ " files failed"),
          World.print (String.join (["", "Done! " ++ (inputs.length - failures strict sources).repr ++
            " rendered, " ++ (failures strict sources).repr ++ " failed"].map (· ++ "\n")))
            { read with disk }) ∧
      (pagesOf folder indent strict inputs sources).Wrote made.disk disk := by
  have takes : ∀ entry ∈ pagesOf folder indent strict inputs sources, entry.2.isOk →
      ∃ place, read.disk.TakesFile entry.1 place := by
    intro entry member rendered
    obtain ⟨pair, present, rfl⟩ := List.mem_map.mp member
    rw [isOk_renderSource] at rendered
    exact drained.disk ▸ ready pair present rendered
  obtain ⟨disk, written, wrote⟩ := run_writePages takes (nodup_pagesOf own same)
  rw [countP_pagesOf same] at written
  exact ⟨disk, run_batch_of_read keeps own makes found written, drained.disk ▸ wrote⟩

theorem batch_sequential {libraries : Libraries} (keeps : libraries.KeepsOrder) (inputs : List String)
    (folder : String) (indent : Nat) (strict : Bool) :
    batch libraries inputs folder indent strict true = batch libraries inputs folder indent strict false := by
  simp only [batch, renderBatch_eq_map keeps]
  rfl

/-- A batch writes one page for every input that parses, or nothing at all. It fails before the first page
if the inputs have no stems of their own, or if one of them leads to no text when the folder is there.
Otherwise no other files than the pages change, and a page that is at no place of another one holds the HTML
of what was read, files as they were at the start; all pages are of this kind if none of them is a link. That
the folder is made first matters only to paths with two dots, in them or in the links on their way. -/
theorem batch_writes_pages {libraries : Libraries} (keeps : libraries.KeepsOrder) {world made : World}
    {folder : String} (makes : world.makeFolders folder = (.ok (), made)) (inputs : List String)
    (indent : Nat) (strict sequential : Bool) {result : Except String Unit} {after : World}
    (ran : Program.run (ExceptT.run (batch libraries inputs folder indent strict sequential)) world =
      (result, after)) :
    (¬HaveOwnStems inputs ∨ (∃ input ∈ inputs, made.textAt? input = none) →
      (∃ message, result = .error message) ∧
        ∀ place, after.disk.content? place = world.disk.content? place) ∧
    (HaveOwnStems inputs → (∀ input ∈ inputs, made.textAt? input ≠ none) →
      (inputs.map (pageOf folder)).Nodup ∧
      ∃ sources read,
        Program.run (ExceptT.run (inputs.mapM Task.readFile)) made = (.ok sources, read) ∧
        List.Forall₂ (fun input source => ∀ content,
          world.disk.stored? input = some content ∨ made.disk.stored? input = some content →
            fileText (some content) = .ok source) inputs sources ∧
        ((∀ entry ∈ inputs.zip sources, (parse { strict } entry.2).isOk →
            ∃ place, made.disk.TakesFile (pageOf folder entry.1) place) →
          (∀ entry ∈ inputs.zip sources, HasOwnPage made.disk folder inputs entry.1 →
            (∀ tree, parse { strict } entry.2 = .ok tree →
              after.disk.stored? (pageOf folder entry.1) = some (renderTree { indent } tree).toUTF8) ∧
            ∀ reason, parse { strict } entry.2 = .error reason →
              after.disk.stored? (pageOf folder entry.1) = made.disk.stored? (pageOf folder entry.1)) ∧
          (∀ place, after.disk.content? place ≠ world.disk.content? place →
            ∃ entry ∈ inputs.zip sources, (parse { strict } entry.2).isOk ∧
              made.disk.Leads (pageOf folder entry.1) place) ∧
          result = if failures strict sources = 0 then .ok () else
            .error ((failures strict sources).repr ++ " of " ++ inputs.length.repr ++ " files failed"))) ∧
    (HaveOwnStems inputs → (∀ input ∈ inputs, ¬made.disk.NamesLink (pageOf folder input)) →
      ∀ input ∈ inputs, HasOwnPage made.disk folder inputs input) ∧
    (∀ path text, world.textAt? path = some text → made.textAt? path = some text) ∧
    (world.disk.IsTree → world.disk.HasLevelLinks → ∀ path, ['.', '.'] ∉ (Path.ofText path).names →
      made.textAt? path = world.textAt? path) ∧
    batch libraries inputs folder indent strict true = batch libraries inputs folder indent strict false := by
  obtain ⟨_, grows⟩ := World.grows_of_makeFolders makes
  refine ⟨fun bad => ?_, fun own readable => ⟨own.nodup_pages folder, ?_⟩, fun own => own.hasOwnPage,
    fun _ _ => World.textAt?_of_makeFolders makes,
    fun tree level _ => World.textAt?_eq_of_makeFolders makes tree level, batch_sequential keeps ..⟩
  · by_cases own : HaveOwnStems inputs
    · obtain ⟨message, read, unread, same⟩ :=
        run_readFiles_of_missing (.inl rfl) (bad.resolve_left (not_not_intro own))
      cases (run_batch_of_unread own makes unread).symm.trans ran
      exact ⟨⟨message, rfl⟩, fun place => same ▸ grows.content? place⟩
    · obtain ⟨message, refused⟩ := run_batch_of_refused own
      cases refused.symm.trans ran
      exact ⟨⟨message, rfl⟩, fun place => rfl⟩
  · obtain ⟨sources, read, found, drained, alike⟩ := run_readFiles (.inl rfl) readable
    have same := alike.length_eq
    refine ⟨sources, read, found, alike.imp fun input source kept content stored => ?_, fun ready => ?_⟩
    · exact kept content (stored.elim grows.stored? id)
    · obtain ⟨disk, finished, wrote⟩ := run_batch_of_ready keeps own makes found drained same ready
      cases finished.symm.trans ran
      refine ⟨fun entry member alone => ⟨fun tree parsed => ?_, fun reason rejected => ?_⟩,
        fun place changed => ?_, rfl⟩
      · have page := mem_pagesOf folder indent strict member
        rw [renderSource, parsed] at page
        exact wrote.pages _ _ page (alone_pagesOf alone)
      · have page := mem_pagesOf folder indent strict member
        rw [renderSource, rejected] at page
        exact wrote.untouched (nodup_pagesOf own same) page (alone_pagesOf alone)
      · have moved : disk.find? place ≠ made.disk.find? place := fun still =>
          changed ((Disk.content?_congr still).trans (grows.content? place))
        obtain ⟨entry, member, rendered, leads⟩ := wrote.others place moved
        obtain ⟨pair, present, rfl⟩ := List.mem_map.mp member
        exact ⟨pair, present, isOk_renderSource _ _ _ ▸ rendered, leads⟩

/-- Libraries that have no words for a JSON error, which no batch needs. -/
def silentLibraries : Libraries := .withTasks fun _ => ""

/-- A link leads to the folder that it stands in, so the page of one file takes the place of the file. The
emphasis in the other one is left open. -/
def crossedFiles : World where
  disk :=
    { home := []
      entries := [([], .folder), (["here".toList], .link (.ofText ".")),
        (["page.html".toList], .file "hi\n".toUTF8), (["bad.rst".toList], .file "*open\n".toUTF8)] }
  input := .empty

theorem isTree_crossedFiles : crossedFiles.disk.IsTree := by
  refine Disk.isTree_of_entries fun place member _ => ?_
  have shallow : ∀ place ∈ crossedFiles.disk.entries.map Prod.fst, place.dropLast = [] := by decide +kernel
  rw [shallow place member]
  rfl

theorem hasLevelLinks_crossedFiles : crossedFiles.disk.HasLevelLinks := by
  refine Disk.hasLevelLinks_of_entries fun entry member target linked => ?_
  simp only [crossedFiles, List.mem_cons, List.not_mem_nil, or_false] at member
  rcases member with rfl | rfl | rfl | rfl <;> cases linked
  decide +kernel

theorem batch_writes_pages_crossed : ∃ made after tree,
    crossedFiles.makeFolders "here" = (.ok (), made) ∧
    made.textAt? "here/bad.rst" = crossedFiles.textAt? "here/bad.rst" ∧
    Program.run (ExceptT.run (batch silentLibraries ["page.html", "here/bad.rst"] "here" 2 true false))
      crossedFiles = (.error "1 of 2 files failed", after) ∧
    parse { strict := true } "hi\n" = .ok tree ∧
    after.disk.stored? "here/page.html" = some (renderTree { indent := 2 } tree).toUTF8 ∧
    after.disk.stored? "here/bad.html" = made.disk.stored? "here/bad.html" := by
  have makes : crossedFiles.makeFolders "here" = (.ok (), (crossedFiles.makeFolders "here").2) :=
    Prod.ext (by decide +kernel) rfl
  have keeps : silentLibraries.KeepsOrder := Libraries.keepsOrder_withTasks _
  obtain ⟨_, good, _, _, alike, _⟩ :=
    batch_writes_pages keeps makes ["page.html", "here/bad.rst"] 2 true false (Prod.eta _).symm
  have same := alike isTree_crossedFiles hasLevelLinks_crossedFiles "here/bad.rst" (by decide +kernel)
  obtain ⟨_, sources, read, found, _, rest⟩ := good (by decide +kernel) (by decide +kernel)
  have given : sources = ["hi\n", "*open\n"] := by
    have texts : (Program.run (ExceptT.run (["page.html", "here/bad.rst"].mapM Task.readFile))
        (crossedFiles.makeFolders "here").2).1 = .ok ["hi\n", "*open\n"] := by decide +kernel
    rw [found] at texts
    exact Except.ok.inj texts
  subst given
  have here : pageOf "here" "page.html" = "here/page.html" := by decide +kernel
  have there : pageOf "here" "here/bad.rst" = "here/bad.html" := by decide +kernel
  have first : (crossedFiles.makeFolders "here").2.disk.Leads "here/page.html" ["page.html".toList] :=
    show _ = _ by decide +kernel
  have second : (crossedFiles.makeFolders "here").2.disk.Leads "here/bad.html" ["bad.html".toList] :=
    show _ = _ by decide +kernel
  have apart (place : Location) (one : (crossedFiles.makeFolders "here").2.disk.Leads "here/page.html" place)
      (other : (crossedFiles.makeFolders "here").2.disk.Leads "here/bad.html" place) : False := by
    cases first.symm.trans one
    cases second.symm.trans other
  have alone : ∀ input ∈ ["page.html", "here/bad.rst"],
      HasOwnPage (crossedFiles.makeFolders "here").2.disk "here" ["page.html", "here/bad.rst"] input := by
    intro input member other present distinct place one two
    rcases List.mem_pair.mp member with rfl | rfl <;> rcases List.mem_pair.mp present with rfl | rfl
    · exact distinct rfl
    · exact apart place (here ▸ one) (there ▸ two)
    · exact apart place (here ▸ two) (there ▸ one)
    · exact distinct rfl
  have takes : (crossedFiles.makeFolders "here").2.disk.TakesFile "here/page.html" ["page.html".toList] := by
    refine ⟨by decide +kernel, fun device found => ?_⟩
    have file : (crossedFiles.makeFolders "here").2.disk.content? ["page.html".toList] =
      some "hi\n".toUTF8 := by decide +kernel
    rw [Disk.content?_eq_some_iff, found] at file
    cases file
  obtain ⟨pages, _, result⟩ := rest (by
    intro entry member parses
    rcases List.mem_pair.mp member with rfl | rfl
    · exact ⟨_, here ▸ takes⟩
    · exact absurd parses (by decide +kernel))
  have failed : failures true ["hi\n", "*open\n"] = 1 := by decide +kernel
  rw [failed] at result
  obtain ⟨written, _⟩ :=
    here ▸ pages ("page.html", "hi\n") List.mem_cons_self (alone _ List.mem_cons_self)
  obtain ⟨_, kept⟩ := there ▸ pages ("here/bad.rst", "*open\n") (List.mem_cons_of_mem _ List.mem_cons_self)
    (alone _ (List.mem_cons_of_mem _ List.mem_cons_self))
  have fine : (parse { strict := true } "hi\n").isOk := by decide +kernel
  have broken : (parse { strict := true } "*open\n").isOk = false := by decide +kernel
  cases parsed : parse { strict := true } "hi\n" with
  | error reason =>
    rw [parsed] at fine
    cases fine
  | ok tree =>
    cases rejected : parse { strict := true } "*open\n" with
    | ok tree =>
      rw [rejected] at broken
      cases broken
    | error reason => exact ⟨_, _, tree, makes, same, Prod.ext (result.trans (by decide +kernel)) rfl, rfl,
        written tree parsed, kept reason rejected⟩

/-- The page of a paragraph of one word. -/
def wordPage (word : String) : String :=
  String.join ["<div class=\"rst-document\">\n  <p class=\"rst-paragraph\">\n<span class=\"rst-text\">", word,
    "</span>\n  </p>\n\n</div>\n"]

def plainFile : World where
  disk := .ofFiles [] [(["a.rst".toList], "hi\n".toUTF8)]
  input := .empty

/-- The page of one file is a link to the page of the other one. -/
def linkedPages : World where
  disk :=
    { home := []
      entries := [([], .folder), (["a.rst".toList], .file "hi\n".toUTF8),
        (["b.rst".toList], .file "ho\n".toUTF8), (["a.html".toList], .link (.ofText "b.html"))] }
  input := .empty

/-- A path through the folder that is made leads to no text at the start, and to one when it is read. A page
that is a link is written where the link leads, and another page can be written over it there. -/
theorem batch_goes_where_paths_lead :
    (HaveOwnStems ["out/../a.rst"] ∧
      (plainFile.readFile "out/../a.rst").1 = .error .notFound ∧
      (plainFile.makeFolders "out").1 = .ok () ∧
      (Program.run (ExceptT.run (batch silentLibraries ["out/../a.rst"] "out" 2 false false)) plainFile).1 =
        .ok () ∧
      plainFile.disk.stored? "out/a.html" = none ∧
      ((Program.run (ExceptT.run (batch silentLibraries ["out/../a.rst"] "out" 2 false false))
        plainFile).2.readFile "out/a.html").1 = .ok (wordPage "hi")) ∧
    HaveOwnStems ["a.rst", "b.rst"] ∧
      (linkedPages.readFile "a.rst").1 = .ok "hi\n" ∧
      (Program.run (ExceptT.run (batch silentLibraries ["a.rst", "b.rst"] "." 2 false false)) linkedPages).1 =
        .ok () ∧
      ((Program.run (ExceptT.run (batch silentLibraries ["a.rst", "b.rst"] "." 2 false false))
        linkedPages).2.readFile "a.html").1 = .ok (wordPage "ho") := by
  refine ⟨⟨?_, ?_, ?_, ?_, ?_, ?_⟩, ?_, ?_, ?_, ?_⟩ <;> decide +kernel

end RstPress.Cli
