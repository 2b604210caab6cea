import Mathlib.Data.List.Permutation
import Mathlib.Data.List.Induction
import Mathlib.Data.List.TakeWhile
import SignatureLayers.App
import SignatureLayers.Proofs.Coherence
import SignatureLayers.Proofs.Files
import SignatureLayers.Proofs.Log
import SignatureLayers.Proofs.Walks

namespace SignatureLayers

theorem Text.decode?_toUTF8 {s : String} (h : '\r' ∉ s.toList) : decode? s.toUTF8 = some s := by
  have hbytes : String.fromUTF8? s.toUTF8 = some s := dif_pos s.isValidUTF8
  have hbreaks {cs : List Char} (hcs : '\r' ∉ cs) : unifyBreaks cs = cs := by
    induction cs with
    | nil => rfl
    | cons c cs ih =>
      obtain ⟨hc, hcs⟩ := not_or.1 (mt List.mem_cons.2 hcs)
      rw [unifyBreaks.eq_4 c cs (fun _ hbreak _ => hc hbreak.symm) (fun hbreak => hc hbreak.symm),
        ih hcs]
  rw [decode?, hbytes, Option.map_some, hbreaks h, String.ofList_toList]

/-- The layer that a file holds, or why it holds none. -/
def Store.layer (s : Store) (path : Path) : Except ApplyFault Forest :=
  match s.read path with
  | .error e => .error (.store e)
  | .ok bytes =>
    match Text.decode? bytes with
    | none => .error .undecodable
    | some source => (parse path.text source).mapError .source

def Store.layer? (s : Store) (path : Path) : Option Forest := (s.layer path).toOption

theorem Store.layer?_eq_some_iff {s : Store} {path : Path} {layer : Forest} :
    s.layer? path = some layer ↔ s.layer path = .ok layer := by
  unfold Store.layer?
  cases s.layer path <;> simp [Except.toOption]

theorem Store.layer_eq_ok_iff {s : Store} {path : Path} {layer : Forest} :
    s.layer path = .ok layer ↔ ∃ bytes source, s.read path = .ok bytes ∧
      Text.decode? bytes = some source ∧ parse path.text source = .ok layer := by
  unfold Store.layer
  constructor
  · intro h
    split at h
    · cases h
    · next bytes hread =>
      split at h
      · cases h
      · next source hdecode =>
        cases hparse : parse path.text source with
        | error e => simp [hparse, Except.mapError] at h
        | ok forest =>
          rw [hparse] at h
          cases h
          exact ⟨bytes, source, hread, hdecode, hparse⟩
  · rintro ⟨bytes, source, hread, hdecode, hparse⟩
    simp only [hread, hdecode, hparse]
    rfl

def Store.leading (s : Store) (files : List Path) : List Path :=
  files.takeWhile (s.layer? · |>.isSome)

namespace App

/-- A call of `apply`, with the files as they are when it is made. -/
structure Call where
  store : Store
  source : Option String
  path : Option Path

def after (a : App) (calls : List Call) : App :=
  calls.foldl (fun a c => (a.apply c.store c.source c.path).2) a

/-- The files that lead to places which neither have been seen nor an earlier file leads to. -/
def unseen (cwd : Path) (seen : List Path) : List Path → List Path
  | [] => []
  | path :: rest =>
    if cwd.resolve path ∈ seen then unseen cwd seen rest
    else path :: unseen cwd (cwd.resolve path :: seen) rest

/-- What calls have merged, and the places of the files among it. -/
structure Record where
  layers : List Forest := []
  seen : List Path := []

namespace Record

/-- The files that are due when a call is made at a path. -/
def due (r : Record) (suffixes : List String) (s : Store) (path : Path) : List Path :=
  unseen s.cwd r.seen (s.signatureFiles (· ∈ suffixes) path).files

/-- The files that the call merges: those that are due, up to the first without a layer. -/
def merges (r : Record) (suffixes : List String) (s : Store) (path : Path) : List Path :=
  s.leading (r.due suffixes s path)

def addFiles (r : Record) (s : Store) (done : List Path) : Record where
  layers := r.layers ++ done.filterMap s.layer?
  seen := (done.map s.cwd.resolve).reverse ++ r.seen

def add (suffixes : List String) (r : Record) (c : Call) : Record :=
  match c.source, c.path with
  | some source, none =>
    match parse "" source with
    | .ok layer => { r with layers := r.layers ++ [layer] }
    | .error _ => r
  | none, some path =>
    r.addFiles c.store (r.merges suffixes c.store path)
  | _, _ => r

/-- What a call answers: the files that it merges, or what stops it. -/
def answer (suffixes : List String) (r : Record) (c : Call) : Except ApplyFault (List Path) :=
  match c.source, c.path with
  | some source, none =>
    match parse "" source with
    | .ok _ => .ok []
    | .error e => .error (.source e)
  | none, some path =>
    match (r.due suffixes c.store path).mapM c.store.layer,
        (c.store.signatureFiles (· ∈ suffixes) path).fault with
    | .error e, _ => .error e
    | .ok _, some .missing => .error (.missing path)
    | .ok _, some e => .error (.store e)
    | .ok _, none => .ok (r.merges suffixes c.store path)
  | _, _ => .error .ambiguous

end Record

/-- An app that has merged what is on record, and nothing else. -/
structure Holds (a : App) (suffixes : List String) (r : Record) : Prop where
  engine : (Engine.afterLayers r.layers).Alike a.engine
  seen : a.seen = r.seen
  suffixes : a.suffixes = suffixes

variable {a : App} {suffixes : List String} {r : Record} {s : Store} {path : Path}

theorem holds_ofSettings (suffixes : List String) :
    (ofSettings suffixes false).Holds suffixes {} where
  engine := ⟨[], by rw [Engine.afterLayers, List.foldl_nil, Engine.ofForest_nil]; rfl⟩
  seen := rfl
  suffixes := rfl

theorem Holds.note (h : a.Holds suffixes r) (n : Notice) : (a.note n).Holds suffixes r :=
  ⟨h.engine.trans ⟨_, rfl⟩, h.seen, h.suffixes⟩

theorem Holds.applyText (h : a.Holds suffixes r) {file source : String} {layer : Forest}
    (hparse : parse file source = .ok layer) :
    (a.applyText file source).1 = none ∧
      (a.applyText file source).2.Holds suffixes { r with layers := r.layers ++ [layer] } := by
  let noted := a.note (.layerMerged layer.length file)
  have hnoted : noted.Holds suffixes r := h.note _
  obtain ⟨hfault, halike⟩ := Engine.mergeLayer_alike hnoted.engine layer
  rw [applyText_of_ok hparse, hfault, ((Engine.coherent_afterLayers r.layers).mergeLayer layer).1]
  refine ⟨rfl, ?_, hnoted.seen, hnoted.suffixes⟩
  simpa [Engine.afterLayers, List.foldl_append] using halike

theorem applyFile_of_text {bytes : ByteArray} {source : String} (hread : s.read path = .ok bytes)
    (hdecode : Text.decode? bytes = some source)
    (hfault : (a.applyText path.text source).1 = none) :
    a.applyFile s path = (none, { (a.applyText path.text source).2 with
      seen := s.cwd.resolve path :: (a.applyText path.text source).2.seen }) := by
  simp only [App.applyFile, hread, hdecode]
  generalize a.applyText path.text source = result at hfault
  obtain ⟨fault, b⟩ := result
  cases hfault
  rfl

theorem applyFile_of_error {e : ApplyFault} (hlayer : s.layer path = .error e) :
    a.applyFile s path = (some e, a) := by
  unfold Store.layer at hlayer
  unfold applyFile
  cases hread : s.read path with
  | error e =>
    rw [hread] at hlayer
    cases hlayer
    rfl
  | ok bytes =>
    simp only [hread] at hlayer ⊢
    cases hdecode : Text.decode? bytes with
    | none =>
      rw [hdecode] at hlayer
      cases hlayer
      rfl
    | some source =>
      simp only [hdecode] at hlayer ⊢
      cases hparse : parse path.text source with
      | ok layer =>
        rw [hparse] at hlayer
        cases hlayer
      | error e =>
        rw [hparse] at hlayer
        cases hlayer
        rw [applyText_of_error hparse]

theorem Holds.applyFile (h : a.Holds suffixes r) {layer : Forest}
    (hlayer : s.layer path = .ok layer) :
    (a.applyFile s path).1 = none ∧
      (a.applyFile s path).2.Holds suffixes
        ⟨r.layers ++ [layer], s.cwd.resolve path :: r.seen⟩ := by
  obtain ⟨bytes, source, hread, hdecode, hparse⟩ := Store.layer_eq_ok_iff.1 hlayer
  obtain ⟨hfault, hholds⟩ := h.applyText hparse
  rw [applyFile_of_text hread hdecode hfault]
  exact ⟨rfl, hholds.engine, congrArg _ hholds.seen, hholds.suffixes⟩

theorem not_mem_of_unseen {cwd : Path} {seen files : List Path} (h : path ∈ unseen cwd seen files) :
    cwd.resolve path ∉ seen := by
  induction files generalizing seen with
  | nil => cases h
  | cons file rest ih =>
    rw [unseen] at h
    split at h
    · exact ih h
    · next hfile =>
      rcases List.mem_cons.1 h with rfl | h
      · exact hfile
      · exact fun hmem => ih h (List.mem_cons_of_mem _ hmem)

theorem nodup_unseen (cwd : Path) (seen files : List Path) :
    ((unseen cwd seen files).map cwd.resolve).Nodup := by
  induction files generalizing seen with
  | nil => exact List.nodup_nil
  | cons file rest ih =>
    rw [unseen]
    split
    · exact ih seen
    · rw [List.map_cons, List.nodup_cons]
      refine ⟨fun hmem => ?_, ih _⟩
      obtain ⟨path, hpath, heq⟩ := List.mem_map.1 hmem
      exact not_mem_of_unseen hpath (heq ▸ List.mem_cons_self)

/-- Once some of the files that are due are seen, the rest are due. -/
theorem unseen_resumed {cwd : Path} {seen files done rest : List Path}
    (h : unseen cwd seen files = done ++ rest) :
    unseen cwd ((done.map cwd.resolve).reverse ++ seen) files = rest := by
  induction files generalizing seen done with
  | nil =>
    rw [unseen] at h
    rw [unseen, (List.append_eq_nil_iff.1 h.symm).2]
  | cons file files ih =>
    rw [unseen] at h
    split at h
    · next hfile =>
      rw [unseen, if_pos (List.mem_append_right _ hfile)]
      exact ih h
    · next hfile =>
      cases done with
      | nil => rw [List.map_nil, List.reverse_nil, List.nil_append, unseen, if_neg hfile, h]; rfl
      | cons first done =>
        obtain ⟨rfl, hrest⟩ := List.cons.inj h
        have hseen : ((file :: done).map cwd.resolve).reverse ++ seen =
            (done.map cwd.resolve).reverse ++ cwd.resolve file :: seen := by simp
        rw [hseen, unseen, if_pos (List.mem_append_right _ List.mem_cons_self)]
        exact ih hrest

theorem mapM_layer_of_forall {files : List Path} (h : ∀ q ∈ files, (s.layer? q).isSome) :
    ∃ layers, files.mapM s.layer = .ok layers :=
  exists_mapM_eq_ok fun q hq => by
    obtain ⟨layer, hlayer⟩ := Option.isSome_iff_exists.1 (h q hq)
    exact ⟨layer, Store.layer?_eq_some_iff.1 hlayer⟩

theorem leading_of_error {e : ApplyFault} (hlayer : s.layer path = .error e) (rest : List Path) :
    s.leading (path :: rest) = [] :=
  List.takeWhile_cons_of_neg (by simp [Store.layer?, hlayer, Except.toOption])

theorem leading_of_layer {layer : Forest} (hlayer : s.layer path = .ok layer) (rest : List Path) :
    s.leading (path :: rest) = path :: s.leading rest :=
  List.takeWhile_cons_of_pos (by simp [Store.layer?, hlayer, Except.toOption])

theorem Record.addFiles_nil (r : Record) (s : Store) : r.addFiles s [] = r := by
  simp [Record.addFiles]

theorem Record.addFiles_cons {layer : Forest} (hlayer : s.layer path = .ok layer)
    (done : List Path) :
    r.addFiles s (path :: done) =
      Record.addFiles ⟨r.layers ++ [layer], s.cwd.resolve path :: r.seen⟩ s done := by
  simp [Record.addFiles, Store.layer?_eq_some_iff.2 hlayer]

/-- Files are merged up to the first without a layer; those that lead to a place seen before are
passed over. -/
theorem Holds.applyFiles (h : a.Holds suffixes r) (done files : List Path) :
    let due := unseen s.cwd r.seen files
    (a.applyFiles s done files).1 = (due.mapM s.layer).map (fun _ => done ++ s.leading due) ∧
      (a.applyFiles s done files).2.Holds suffixes (r.addFiles s (s.leading due)) := by
  induction files generalizing a r done with
  | nil =>
    show _ = Except.ok (done ++ []) ∧ Holds _ suffixes (r.addFiles s [])
    rw [App.applyFiles, Record.addFiles_nil, List.append_nil]
    exact ⟨rfl, h⟩
  | cons path rest ih =>
    rw [App.applyFiles, unseen, h.seen]
    split
    · exact ih (h.note _) done
    · intro due
      cases hlayer : s.layer path with
      | error e =>
        rw [applyFile_of_error hlayer, leading_of_error hlayer, Record.addFiles_nil]
        simp only [due, List.mapM_cons, hlayer]
        exact ⟨rfl, h⟩
      | ok layer =>
        obtain ⟨hfault, hholds⟩ := h.applyFile hlayer
        revert hfault hholds
        generalize a.applyFile s path = result
        obtain ⟨fault, b⟩ := result
        rintro rfl hholds
        obtain ⟨hanswer, hrest⟩ := ih hholds (done ++ [path])
        rw [leading_of_layer hlayer, Record.addFiles_cons hlayer]
        refine ⟨hanswer.trans ?_, hrest⟩
        simp only [due, List.mapM_cons, hlayer]
        cases (unseen s.cwd (s.cwd.resolve path :: r.seen) rest).mapM s.layer with
        | error e => rfl
        | ok layers => simp [Except.map, bind, Except.bind, pure, Except.pure]

theorem Holds.applySource (h : a.Holds suffixes r) (s : Store) (source : String) :
    (a.apply s (some source) none).1 = r.answer suffixes ⟨s, some source, none⟩ ∧
      (a.apply s (some source) none).2.Holds suffixes (r.add suffixes ⟨s, some source, none⟩) := by
  cases hparse : parse "" source with
  | error e =>
    simp only [App.apply, applyText_of_error hparse, Record.answer, Record.add, hparse]
    exact ⟨trivial, h⟩
  | ok layer =>
    obtain ⟨hfault, hholds⟩ := h.applyText hparse
    simp only [App.apply, Record.answer, Record.add, hparse]
    revert hfault hholds
    generalize a.applyText "" source = result
    obtain ⟨fault, b⟩ := result
    rintro rfl hholds
    exact ⟨rfl, hholds⟩

theorem Holds.applyPath (h : a.Holds suffixes r) (s : Store) (path : Path) :
    (a.apply s none (some path)).1 = r.answer suffixes ⟨s, none, some path⟩ ∧
      (a.apply s none (some path)).2.Holds suffixes (r.add suffixes ⟨s, none, some path⟩) := by
  have happlied := h.applyFiles (s := s) [] (s.signatureFiles (· ∈ suffixes) path).files
  revert happlied
  simp only [App.apply, App.applyPath, Record.answer, Record.add, Record.merges, Record.due,
    h.suffixes]
  generalize a.applyFiles s [] (s.signatureFiles (· ∈ suffixes) path).files = result
  generalize unseen s.cwd r.seen (s.signatureFiles (· ∈ suffixes) path).files = due
  generalize (s.signatureFiles (· ∈ suffixes) path).fault = fault
  obtain ⟨found, b⟩ := result
  rintro ⟨rfl, hholds⟩
  -- What a file without a layer or the walk itself ends with, the call ends with.
  cases due.mapM s.layer with
  | error e => exact ⟨rfl, hholds⟩
  | ok layers =>
    cases fault with
    | none => exact ⟨rfl, hholds⟩
    | some e => cases e <;> exact ⟨rfl, hholds⟩

/-- Every call answers as the record tells, and the record goes on. -/
theorem Holds.apply (h : a.Holds suffixes r) (c : Call) :
    (a.apply c.store c.source c.path).1 = r.answer suffixes c ∧
      (a.apply c.store c.source c.path).2.Holds suffixes (r.add suffixes c) := by
  obtain ⟨s, source, path⟩ := c
  cases source with
  | none =>
    cases path with
    | none => exact ⟨rfl, h⟩
    | some path => exact h.applyPath s path
  | some source =>
    cases path with
    | none => exact h.applySource s source
    | some path => exact ⟨rfl, h⟩

theorem Record.nodup_add (h : r.seen.Nodup) (c : Call) : (r.add suffixes c).seen.Nodup := by
  obtain ⟨s, source, path⟩ := c
  cases source with
  | some source =>
    cases path with
    | none =>
      simp only [Record.add]
      split <;> exact h
    | some path => exact h
  | none =>
    cases path with
    | none => exact h
    | some path =>
      have hdone : r.merges suffixes s path <+: r.due suffixes s path := List.takeWhile_prefix _
      show ((r.merges suffixes s path).map s.cwd.resolve).reverse ++ r.seen |>.Nodup
      rw [List.nodup_append, List.nodup_reverse]
      refine ⟨(nodup_unseen _ _ _).sublist (hdone.sublist.map _), h,
        fun place hplace other hseen => ?_⟩
      rw [List.mem_reverse] at hplace
      obtain ⟨file, hfile, rfl⟩ := List.mem_map.1 hplace
      rintro rfl
      exact not_mem_of_unseen (hdone.subset hfile) hseen

/-- A record after calls that are made one after the other. -/
def Record.ofCalls (suffixes : List String) (calls : List Call) : Record :=
  calls.foldl (Record.add suffixes) {}

theorem holds_after (suffixes : List String) (calls : List Call) :
    ((ofSettings suffixes false).after calls).Holds suffixes (.ofCalls suffixes calls) := by
  induction calls using List.reverseRecOn with
  | nil => exact holds_ofSettings suffixes
  | append_singleton calls c ih =>
    rw [App.after, Record.ofCalls, List.foldl_append, List.foldl_append]
    exact (ih.apply c).2

/-- After any calls, failed ones among them, an app has merged the layers on record and no others,
and it has merged no file twice. Each call answers as the record tells. When it stops at a file, this
file is not marked, and a later call that finds the same files, now with layers, merges it and all
that are due behind it. -/
theorem apply_resumes (suffixes : List String) (calls : List Call) :
    let a := (ofSettings suffixes false).after calls
    let r := Record.ofCalls suffixes calls
    (Engine.afterLayers r.layers).Alike a.engine ∧ a.seen = r.seen ∧ a.seen.Nodup ∧
      (∀ c : Call, (a.apply c.store c.source c.path).1 = r.answer suffixes c) ∧
      ∀ s path file rest, r.due suffixes s path = r.merges suffixes s path ++ file :: rest →
        let b := (a.apply s none (some path)).2
        s.cwd.resolve file ∉ b.seen ∧ ∀ s' : Store, s'.cwd = s.cwd →
          s'.signatureFiles (· ∈ suffixes) path =
            ⟨(s.signatureFiles (· ∈ suffixes) path).files, none⟩ →
          (∀ later ∈ file :: rest, (s'.layer? later).isSome) →
          (b.apply s' none (some path)).1 = .ok (file :: rest) := by
  intro a r
  have hholds : a.Holds suffixes r := holds_after suffixes calls
  have hnodup : r.seen.Nodup :=
    List.foldlRecOn (motive := fun r : Record => r.seen.Nodup) calls _ List.nodup_nil
      fun _ h c _ => Record.nodup_add h c
  refine ⟨hholds.engine, hholds.seen, hholds.seen ▸ hnodup, fun c => (hholds.apply c).1, ?_⟩
  intro s path file rest hdue b
  have hb : b.Holds suffixes (r.addFiles s (r.merges suffixes s path)) :=
    (hholds.applyPath s path).2
  have hrest := unseen_resumed hdue
  refine ⟨?_, fun s' hcwd hwalk hlayers => ?_⟩
  · rw [hb.seen]
    exact not_mem_of_unseen (hrest ▸ List.mem_cons_self)
  · have hlater : (r.addFiles s (r.merges suffixes s path)).due suffixes s' path = file :: rest := by
      rw [Record.due, hcwd, hwalk]
      exact hrest
    have hall : s'.leading (file :: rest) = file :: rest := List.takeWhile_eq_self_iff.2 hlayers
    obtain ⟨layers, hmapM⟩ := mapM_layer_of_forall hlayers
    rw [(hb.applyPath s' path).1]
    generalize r.addFiles s (r.merges suffixes s path) = r' at hlater ⊢
    simp only [Record.answer, Record.merges, hlater, hmapM, hwalk, hall]

def inside (name : String) : Path := ⟨"", ["d", name]⟩

/-- The directory `d` with three files, of which the second one in order has this text. -/
def trio (text : String) : Store :=
  .around (.directory [("b.rbs", .file text.toUTF8), ("a.rbs", .file "A: T\n".toUTF8),
    ("c.rbs", .file "C: T\n".toUTF8)])

def trioNames : List String := ["a.rbs", "b.rbs", "c.rbs"]

theorem fault?_inside : ∀ name ∈ trioNames, (inside name).fault? = none := by
  intro name hname
  rw [inside, Path.fault?_relative (List.cons_ne_nil _ _)]
  revert name
  decide +kernel

theorem isTooLong_of_mem_trioNames : ∀ name ∈ trioNames, isTooLong name = false := by
  decide +kernel

theorem signatureFiles_trio (text : String) :
    (trio text).signatureFiles (· ∈ [".rbs"]) ⟨"", ["d"]⟩ = ⟨trioNames.map inside, none⟩ := by
  have hopen := fault?_inside
  have hshort := isTooLong_of_mem_trioNames
  have hsuffix : ∀ name ∈ trioNames, Path.suffix name = ".rbs" := by decide +kernel
  simp only [trioNames, List.forall_mem_cons, inside] at hopen hshort hsuffix
  rw [trio, Store.signatureFiles_of_directory _ (Store.lookup_around _)]
  simp [FileTree.walk, FileTree.found, FileTree.entered, FileTree.look, FileTree.listed,
    FileTree.inOrder, Walk.ofFound, List.mergeSort, Path.child, trioNames, inside, hopen, hshort,
    hsuffix]

theorem read_trio {text name source : String}
    (h : (name, source) ∈ [("a.rbs", "A: T\n"), ("b.rbs", text), ("c.rbs", "C: T\n")]) :
    (trio text).read (inside name) = .ok source.toUTF8 := by
  have hname : name ∈ trioNames := List.mem_map_of_mem (f := Prod.fst) h
  have hfile : [("b.rbs", FileTree.file text.toUTF8), ("a.rbs", .file "A: T\n".toUTF8),
      ("c.rbs", .file "C: T\n".toUTF8)].lookup name = some (.file source.toUTF8) := by
    simp only [List.mem_cons, List.not_mem_nil, or_false, Prod.mk.injEq] at h
    rcases h with ⟨rfl, rfl⟩ | ⟨rfl, rfl⟩ | ⟨rfl, rfl⟩ <;> rfl
  have hdots : name ≠ ".." := by
    rintro rfl
    exact absurd hname (by decide)
  rw [trio, inside, Store.read_around hfile (fault?_inside name hname) hdots
    (isTooLong_of_mem_trioNames name hname)]
  rfl

theorem layer_trio {text name : String} (source : String)
    (h : (name, source) ∈ [("a.rbs", "A: T\n"), ("b.rbs", text), ("c.rbs", "C: T\n")])
    (hreturns : '\r' ∉ source.toList) :
    (trio text).layer (inside name) = (parse (inside name).text source).mapError .source := by
  rw [Store.layer, read_trio h]
  simp only [Text.decode?_toUTF8 hreturns]

theorem due_trio (text : String) :
    ({} : Record).due [".rbs"] (trio text) ⟨"", ["d"]⟩ = trioNames.map inside := by
  rw [Record.due, signatureFiles_trio]
  show unseen ⟨"/", []⟩ [] (trioNames.map inside) = _
  decide +kernel

theorem exists_layer_trio {text name : String} (source : String)
    (h : (name, source) ∈ [("a.rbs", "A: T\n"), ("b.rbs", text), ("c.rbs", "C: T\n")])
    (hsource : source ∈ ["A: T\n", "class B\nend\n", "C: T\n"]) :
    ∃ layer, (trio text).layer (inside name) = .ok layer := by
  have hreturns : ∀ source ∈ ["A: T\n", "class B\nend\n", "C: T\n"], '\r' ∉ source.toList := by
    decide
  have hparses (file : String) : ∃ layer, parse file source = .ok layer := by
    simp only [List.mem_cons, List.not_mem_nil, or_false] at hsource
    rcases hsource with rfl | rfl | rfl <;> exact ⟨_, by cbv⟩
  obtain ⟨layer, hlayer⟩ := hparses (inside name).text
  exact ⟨layer, by rw [layer_trio source h (hreturns source hsource), hlayer]; rfl⟩

/-- A directory is merged up to the file that is not well formed, and from there on when this has
been mended. -/
theorem apply_resumes_mended :
    let broken := trio "class B\n"
    let mended := trio "class B\nend\n"
    let first := (ofSettings [".rbs"] false).apply broken none (some ⟨"", ["d"]⟩)
    first.1 = .error (.source ⟨.missingEnd "B", (inside "b.rbs").text, 1⟩) ∧
      broken.cwd.resolve (inside "b.rbs") ∉ first.2.seen ∧
      (first.2.apply mended none (some ⟨"", ["d"]⟩)).1 = .ok [inside "b.rbs", inside "c.rbs"] := by
  intro broken mended first
  have hbroken : broken.layer (inside "b.rbs") =
      .error (.source ⟨.missingEnd "B", (inside "b.rbs").text, 1⟩) := by
    have hfails (name : String) : parse name "class B\n" = .error ⟨.missingEnd "B", name, 1⟩ := by
      cbv
    rw [layer_trio "class B\n" (by simp) (by decide), hfails]
    rfl
  obtain ⟨layer, hlayer⟩ : ∃ layer, broken.layer (inside "a.rbs") = .ok layer :=
    exists_layer_trio "A: T\n" (by simp) (by simp)
  have hdue : ({} : Record).due [".rbs"] broken ⟨"", ["d"]⟩ = trioNames.map inside := due_trio _
  have hmerges : ({} : Record).merges [".rbs"] broken ⟨"", ["d"]⟩ = [inside "a.rbs"] := by
    rw [Record.merges, hdue]
    simp [trioNames, Store.leading, Store.layer?, hlayer, hbroken, Except.toOption]
  have hsplit : ({} : Record).due [".rbs"] broken ⟨"", ["d"]⟩ =
      ({} : Record).merges [".rbs"] broken ⟨"", ["d"]⟩ ++ inside "b.rbs" :: [inside "c.rbs"] := by
    rw [hdue, hmerges]
    rfl
  obtain ⟨-, -, -, hanswer, hresume⟩ := apply_resumes [".rbs"] []
  obtain ⟨hunseen, hlater⟩ := hresume broken ⟨"", ["d"]⟩ _ _ hsplit
  refine ⟨(hanswer ⟨broken, none, some ⟨"", ["d"]⟩⟩).trans ?_, hunseen, hlater mended rfl ?_ ?_⟩
  · show ({} : Record).answer [".rbs"] ⟨broken, none, some ⟨"", ["d"]⟩⟩ = _
    simp only [Record.answer, hdue, trioNames, List.map_cons, List.mapM_cons, hlayer, hbroken]
    rfl
  · rw [signatureFiles_trio, signatureFiles_trio]
  · have hsome {name : String} (h : ∃ layer, mended.layer (inside name) = .ok layer) :
        (mended.layer? (inside name)).isSome := by
      obtain ⟨layer, hlayer⟩ := h
      rw [Store.layer?_eq_some_iff.2 hlayer]
      rfl
    refine List.forall_mem_cons.2 ⟨hsome ?_, List.forall_mem_singleton.2 (hsome ?_)⟩
    · exact exists_layer_trio "class B\nend\n" (by simp) (by simp)
    · exact exists_layer_trio "C: T\n" (by simp) (by simp)

end App
end SignatureLayers
