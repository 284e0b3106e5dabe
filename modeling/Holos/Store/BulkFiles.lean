import Holos.Lib.MergeSort
import Holos.Store.BulkGeneration
import Holos.Store.RocksScope
import Mathlib.Data.Fin.VecNotation
/-!
# The index files of a bulk load

The quads a load holds back are sorted once for each of the nine orders. A buffer at its limit
is handed to a worker, which writes it out as nine runs. At the end each order is merged from
its runs and the last buffer, and written as files of a number of rows, which the database
takes in as they come from the threads that write them.

`Load` keeps those quads as one list. `FileLoad` is the same load with the runs, and
`finish_eq` says that the files it ends with, in whatever order they arrive, are the rows of
that list. So a load shows what inserting its quads one by one would have.
-/

namespace Holos

open Lib

/-! ## Orders -/

def Key3.component (row : Key3) : Fin 3 → TermId := ![row.a, row.b, row.c]
def Key4.component (row : Key4) : Fin 4 → TermId := ![row.a, row.b, row.c, row.d]

/-- Which components of a triple the key of an order is made of. -/
def TripleOrder.perm : TripleOrder → Fin 3 → Fin 3
  | .dspo => ![0, 1, 2]
  | .dpos => ![1, 2, 0]
  | .dosp => ![2, 0, 1]

/-- Which components of a quad, its graph last, the key of an order is made of. -/
def QuadOrder.perm : QuadOrder → Fin 4 → Fin 4
  | .spog => ![0, 1, 2, 3]
  | .posg => ![1, 2, 0, 3]
  | .ospg => ![2, 0, 1, 3]
  | .gspo => ![3, 0, 1, 2]
  | .gpos => ![3, 1, 2, 0]
  | .gosp => ![3, 2, 0, 1]

def TripleOrder.all : List TripleOrder := [.dspo, .dpos, .dosp]
def QuadOrder.all : List QuadOrder := [.spog, .posg, .ospg, .gspo, .gpos, .gosp]

theorem TripleOrder.all_nodup : TripleOrder.all.Nodup := by decide
theorem QuadOrder.all_nodup : QuadOrder.all.Nodup := by decide

theorem TripleOrder.mem_all (order : TripleOrder) : order ∈ TripleOrder.all := by cases order <;> decide
theorem QuadOrder.mem_all (order : QuadOrder) : order ∈ QuadOrder.all := by cases order <;> decide

/-- The key of a row. -/
def TripleOrder.keyOf (order : TripleOrder) (row : Key3) : Key3 :=
  ⟨row.component (order.perm 0), row.component (order.perm 1), row.component (order.perm 2)⟩

def QuadOrder.keyOf (order : QuadOrder) (row : Key4) : Key4 :=
  ⟨row.component (order.perm 0), row.component (order.perm 1), row.component (order.perm 2), row.component (order.perm 3)⟩

theorem TripleOrder.keyOf_injective (order : TripleOrder) : Function.Injective order.keyOf := by
  rintro ⟨a, b, c⟩ ⟨a', b', c'⟩ h
  cases order <;> simp [keyOf, perm, Key3.component] at h <;> simp [h]

theorem QuadOrder.keyOf_injective (order : QuadOrder) : Function.Injective order.keyOf := by
  rintro ⟨a, b, c, d⟩ ⟨a', b', c', d'⟩ h
  cases order <;> simp [keyOf, perm, Key4.component] at h <;> simp [h]

/-! ## Files -/

/-- Splits quads into the two key shapes. -/
def partition : List EncodedQuad → List Key3 × List Key4
  | [] => ([], [])
  | quad :: quads =>
    let (triples, named) := partition quads
    match quad.graphName with
    | none => (⟨quad.subject, quad.predicate, quad.object⟩ :: triples, named)
    | some g => (triples, ⟨quad.subject, quad.predicate, quad.object, g⟩ :: named)

/-- The runs on disk, of each order. -/
structure Spilled where
  triples : TripleOrder → List (List Key3)
  named : QuadOrder → List (List Key4)

namespace Spilled

def new : Spilled := ⟨fun _ => [], fun _ => []⟩

/-- One buffer, nine orders. -/
def add (s : Spilled) (quads : List EncodedQuad) : Spilled where
  triples := spillAll TripleOrder.keyOf TripleOrder.all s.triples (partition quads).1
  named := spillAll QuadOrder.keyOf QuadOrder.all s.named (partition quads).2

end Spilled

/-- A file of one order. -/
inductive IndexFile where
  | triples (order : TripleOrder) (keys : List Key3)
  | named (order : QuadOrder) (keys : List Key4)

/-- The rows of a file. -/
def IndexFile.rows : IndexFile → List Pending
  | .triples order keys => keys.map (.putTriple order)
  | .named order keys => keys.map (.putQuad order)

/-- One order's share of the merge. -/
inductive MergeJob where
  | triples (order : TripleOrder)
  | named (order : QuadOrder)

namespace MergeJob

def all : List MergeJob := TripleOrder.all.map .triples ++ QuadOrder.all.map .named

/-- Merges an order's runs with its tail and writes its files; `none` is a writer that refused a
key. -/
def run (fileRows : Nat) (spilled : Spilled) (quads : List EncodedQuad) : MergeJob → Option (List IndexFile)
  | .triples order =>
    (mergeFiles order.keyOf fileRows (spilled.triples order) (partition quads).1).map (·.map (.triples order))
  | .named order =>
    (mergeFiles order.keyOf fileRows (spilled.named order) (partition quads).2).map (·.map (.named order))

def runAll (fileRows : Nat) (spilled : Spilled) (quads : List EncodedQuad) : List MergeJob → Option (List IndexFile)
  | [] => some []
  | job :: jobs => do
    let files ← job.run fileRows spilled quads
    let more ← runAll fileRows spilled quads jobs
    return files ++ more

end MergeJob

/-- Takes in files as they arrive, then the catalogue. -/
def Db.ingestFiles (db : Db) (arrived : List IndexFile) (graphs : SortedSet TermId) : Db :=
  let db := arrived.foldl (fun db file => db.write file.rows) db
  { db with index := { db.index with graphs := graphs.toList.foldl SortedSet.insert db.index.graphs } }

/-- A load with the runs of its worker. -/
structure FileLoad where
  load : Load
  runs : Option Spilled

namespace FileLoad

variable (config : Config) (finished : Nat → Bool)

/-- A quad waits for the end of the load, in a buffer that is handed over at its limit. -/
def insertEncoded (l : FileLoad) (quad : EncodedQuad) : Bool × FileLoad :=
  let quads := l.load.state.quads ++ [quad]
  let (inserted, load) := l.load.insertEncoded config quad
  (inserted, ⟨load, if config.ingestLimit ≤ quads.length then some ((l.runs.getD .new).add quads) else l.runs⟩)

/-- The files of all nine orders. -/
def indexFiles (fileRows : Nat) (l : FileLoad) : Option (List IndexFile) :=
  MergeJob.runAll fileRows (l.runs.getD .new) l.load.state.quads MergeJob.all

/-- Writes what is buffered, with the files of the quads in the order they arrived. -/
def finishBulk (l : FileLoad) (arrived : List IndexFile) : RocksStorage :=
  let load := l.load.settleDictionary finished true
  let db := (load.storage.db.ingest load.state.dict).write load.state.pending
  let db := if load.state.quads.isEmpty && l.runs.isNone then db else db.ingestFiles arrived load.state.graphs
  { load.storage with db }.recount

end FileLoad

/-! ## What a file writes -/

def QuadIndex.triples (ix : QuadIndex) : TripleOrder → SortedSet Key3
  | .dspo => ix.dspo
  | .dpos => ix.dpos
  | .dosp => ix.dosp

def QuadIndex.named (ix : QuadIndex) : QuadOrder → SortedSet Key4
  | .spog => ix.spog
  | .posg => ix.posg
  | .ospg => ix.ospg
  | .gspo => ix.gspo
  | .gpos => ix.gpos
  | .gosp => ix.gosp

theorem QuadIndex.ext_orders {ix ix' : QuadIndex} (ht : ∀ o, ix.triples o = ix'.triples o) (hq : ∀ o, ix.named o = ix'.named o)
    (hg : ix.graphs = ix'.graphs) : ix = ix' := by
  have h₁ := ht .dspo
  have h₂ := ht .dpos
  have h₃ := ht .dosp
  have h₄ := hq .spog
  have h₅ := hq .posg
  have h₆ := hq .ospg
  have h₇ := hq .gspo
  have h₈ := hq .gpos
  have h₉ := hq .gosp
  cases ix
  cases ix'
  simp only [QuadIndex.triples, QuadIndex.named] at h₁ h₂ h₃ h₄ h₅ h₆ h₇ h₈ h₉ hg
  subst h₁ h₂ h₃ h₄ h₅ h₆ h₇ h₈ h₉ hg
  rfl

/-- A row of an index order. -/
inductive IsRow : Pending → Prop where
  | triple (order : TripleOrder) (key : Key3) : IsRow (.putTriple order key)
  | quad (order : QuadOrder) (key : Key4) : IsRow (.putQuad order key)

variable {db : Db} {ops ops' : List Pending}

theorem mem_write_triples (h : ∀ op ∈ ops, IsRow op) (o : TripleOrder) (k : Key3) :
    k ∈ (db.write ops).index.triples o ↔ k ∈ db.index.triples o ∨ .putTriple o k ∈ ops := by
  unfold Db.write
  induction ops generalizing db with
  | nil => simp
  | cons op ops ih =>
    rw [List.foldl_cons, ih (fun op hop => h op (List.mem_cons_of_mem _ hop)), List.mem_cons]
    cases h op List.mem_cons_self with
    | triple order key =>
      cases order <;> cases o <;>
        simp [Db.apply, QuadIndex.onTriples, QuadIndex.triples] <;> tauto
    | quad order key =>
      cases order <;> cases o <;> simp [Db.apply, QuadIndex.onQuads, QuadIndex.triples]

theorem mem_write_named (h : ∀ op ∈ ops, IsRow op) (o : QuadOrder) (k : Key4) :
    k ∈ (db.write ops).index.named o ↔ k ∈ db.index.named o ∨ .putQuad o k ∈ ops := by
  unfold Db.write
  induction ops generalizing db with
  | nil => simp
  | cons op ops ih =>
    rw [List.foldl_cons, ih (fun op hop => h op (List.mem_cons_of_mem _ hop)), List.mem_cons]
    cases h op List.mem_cons_self with
    | triple order key =>
      cases order <;> cases o <;> simp [Db.apply, QuadIndex.onTriples, QuadIndex.named]
    | quad order key =>
      cases order <;> cases o <;>
        simp [Db.apply, QuadIndex.onQuads, QuadIndex.named] <;> tauto

theorem write_isRow_graphs (h : ∀ op ∈ ops, IsRow op) :
    (db.write ops).index.graphs = db.index.graphs ∧ (db.write ops) = { db with index := (db.write ops).index } := by
  unfold Db.write
  induction ops generalizing db with
  | nil => exact ⟨rfl, rfl⟩
  | cons op ops ih =>
    obtain ⟨hgraphs, hrest⟩ := @ih (db.apply op) (fun op hop => h op (List.mem_cons_of_mem _ hop))
    rw [List.foldl_cons]
    refine ⟨hgraphs.trans ?_, hrest.trans ?_⟩
    · cases h op List.mem_cons_self with
      | triple order key => cases order <;> rfl
      | quad order key => cases order <;> rfl
    · cases h op List.mem_cons_self with
      | triple order key => rfl
      | quad order key => rfl

/-- Rows of index orders can be written in any order, and any number of times. -/
theorem write_congr (h : ∀ op ∈ ops, IsRow op) (hsame : ∀ op, op ∈ ops ↔ op ∈ ops') : db.write ops = db.write ops' := by
  have h' : ∀ op ∈ ops', IsRow op := fun op hop => h op ((hsame op).2 hop)
  have hindex : (db.write ops).index = (db.write ops').index := by
    apply QuadIndex.ext_orders
    · intro o
      refine SortedSet.ext (fun k => ?_)
      rw [mem_write_triples h, mem_write_triples h', hsame]
    · intro o
      refine SortedSet.ext (fun k => ?_)
      rw [mem_write_named h, mem_write_named h', hsame]
    · rw [(write_isRow_graphs h).1, (write_isRow_graphs h').1]
  rw [(write_isRow_graphs h).2, (write_isRow_graphs h').2, hindex]

/-! ## The rows of quads -/

theorem partition_append (quads quads' : List EncodedQuad) :
    (partition (quads ++ quads')).1 = (partition quads).1 ++ (partition quads').1 ∧
      (partition (quads ++ quads')).2 = (partition quads).2 ++ (partition quads').2 := by
  induction quads with
  | nil => exact ⟨rfl, rfl⟩
  | cons q quads ih =>
    obtain ⟨ht, hn⟩ := ih
    rw [List.cons_append, partition, partition]
    cases q.graphName <;> simp [ht, hn]

theorem mem_indexRows_triples (quads : List EncodedQuad) (o : TripleOrder) (k : Key3) :
    .putTriple o k ∈ quads.flatMap indexRows ↔ k ∈ (partition quads).1.map o.keyOf := by
  induction quads with
  | nil => simp [partition]
  | cons q quads ih =>
    obtain ⟨s, p, o', g⟩ := q
    rw [List.flatMap_cons, List.mem_append, ih, partition]
    cases g with
    | none => cases o <;> simp [indexRows, TripleOrder.keyOf, TripleOrder.perm, Key3.component]
    | some g => simp [indexRows]

theorem mem_indexRows_named (quads : List EncodedQuad) (o : QuadOrder) (k : Key4) :
    .putQuad o k ∈ quads.flatMap indexRows ↔ k ∈ (partition quads).2.map o.keyOf := by
  induction quads with
  | nil => simp [partition]
  | cons q quads ih =>
    obtain ⟨s, p, o', g⟩ := q
    rw [List.flatMap_cons, List.mem_append, ih, partition]
    cases g with
    | none => simp [indexRows]
    | some g => cases o <;> simp [indexRows, QuadOrder.keyOf, QuadOrder.perm, Key4.component]

theorem indexRows_isRow (quads : List EncodedQuad) : ∀ op ∈ quads.flatMap indexRows, IsRow op := by
  intro op hop
  obtain ⟨⟨s, p, o, g⟩, -, hop⟩ := List.mem_flatMap.1 hop
  cases g with
  | none =>
    simp only [indexRows, List.mem_cons, List.not_mem_nil, or_false] at hop
    rcases hop with rfl | rfl | rfl <;> exact .triple _ _
  | some g =>
    simp only [indexRows, List.mem_cons, List.not_mem_nil, or_false] at hop
    rcases hop with rfl | rfl | rfl | rfl | rfl | rfl <;> exact .quad _ _

/-! ## The runs of a load -/

/-- The runs have the rows of some quads. -/
structure Spilled.Holds (s : Spilled) (quads : List EncodedQuad) : Prop where
  triples : ∀ o : TripleOrder, Holding o.keyOf (s.triples o) (partition quads).1
  named : ∀ o : QuadOrder, Holding o.keyOf (s.named o) (partition quads).2

namespace Spilled

theorem new_holds : new.Holds [] := ⟨fun _ => .nil, fun _ => .nil⟩

theorem Holds.add {s : Spilled} {held : List EncodedQuad} (h : s.Holds held) (quads : List EncodedQuad) :
    (s.add quads).Holds (held ++ quads) where
  triples o := by
    rw [(partition_append held quads).1]
    exact spillAll_holding TripleOrder.keyOf_injective (fun o _ => h.triples o) TripleOrder.all_nodup o.mem_all
  named o := by
    rw [(partition_append held quads).2]
    exact spillAll_holding QuadOrder.keyOf_injective (fun o _ => h.named o) QuadOrder.all_nodup o.mem_all

end Spilled

namespace MergeJob

/-- Which rows are a job's. -/
def Writes : MergeJob → Pending → Prop
  | .triples o, op => ∃ k, op = .putTriple o k
  | .named o, op => ∃ k, op = .putQuad o k

variable {s : Spilled} {held : List EncodedQuad} (fileRows : Nat)

/-- A job's files have its rows of all quads. -/
theorem run_spec (h : s.Holds held) (quads : List EncodedQuad) (job : MergeJob) :
    ∃ files, job.run fileRows s quads = some files ∧
      ∀ op, op ∈ files.flatMap IndexFile.rows ↔ job.Writes op ∧ op ∈ (held ++ quads).flatMap indexRows := by
  obtain ⟨htriples, hnamed⟩ := partition_append held quads
  cases job with
  | triples o =>
    obtain ⟨files, hfiles, -, hmem⟩ := @mergeFiles_spec _ _ _ _ _ _ (partition quads).1 fileRows (h.triples o)
    refine ⟨files.map (.triples o), by rw [run, hfiles, Option.map_some], fun op => ?_⟩
    have hrows : op ∈ (files.map (IndexFile.triples o)).flatMap IndexFile.rows ↔ ∃ k ∈ files.flatten, op = .putTriple o k := by
      simp only [List.mem_flatMap, List.mem_map, List.mem_flatten]
      constructor
      · rintro ⟨_, ⟨file, hfile, rfl⟩, hop⟩
        obtain ⟨k, hk, rfl⟩ := List.mem_map.1 hop
        exact ⟨k, ⟨file, hfile, hk⟩, rfl⟩
      · rintro ⟨k, ⟨file, hfile, hk⟩, rfl⟩
        exact ⟨_, ⟨file, hfile, rfl⟩, List.mem_map_of_mem hk⟩
    rw [hrows]
    constructor
    · rintro ⟨k, hk, rfl⟩
      exact ⟨⟨k, rfl⟩, (mem_indexRows_triples _ o k).2 (htriples ▸ (hmem k).1 hk)⟩
    · rintro ⟨⟨k, rfl⟩, hop⟩
      exact ⟨k, (hmem k).2 (htriples ▸ (mem_indexRows_triples _ o k).1 hop), rfl⟩
  | named o =>
    obtain ⟨files, hfiles, -, hmem⟩ := @mergeFiles_spec _ _ _ _ _ _ (partition quads).2 fileRows (h.named o)
    refine ⟨files.map (.named o), by rw [run, hfiles, Option.map_some], fun op => ?_⟩
    have hrows : op ∈ (files.map (IndexFile.named o)).flatMap IndexFile.rows ↔ ∃ k ∈ files.flatten, op = .putQuad o k := by
      simp only [List.mem_flatMap, List.mem_map, List.mem_flatten]
      constructor
      · rintro ⟨_, ⟨file, hfile, rfl⟩, hop⟩
        obtain ⟨k, hk, rfl⟩ := List.mem_map.1 hop
        exact ⟨k, ⟨file, hfile, hk⟩, rfl⟩
      · rintro ⟨k, ⟨file, hfile, hk⟩, rfl⟩
        exact ⟨_, ⟨file, hfile, rfl⟩, List.mem_map_of_mem hk⟩
    rw [hrows]
    constructor
    · rintro ⟨k, hk, rfl⟩
      exact ⟨⟨k, rfl⟩, (mem_indexRows_named _ o k).2 (hnamed ▸ (hmem k).1 hk)⟩
    · rintro ⟨⟨k, rfl⟩, hop⟩
      exact ⟨k, (hmem k).2 (hnamed ▸ (mem_indexRows_named _ o k).1 hop), rfl⟩

theorem runAll_spec (h : s.Holds held) (quads : List EncodedQuad) (jobs : List MergeJob) :
    ∃ files, runAll fileRows s quads jobs = some files ∧
      ∀ op, op ∈ files.flatMap IndexFile.rows ↔ (∃ job ∈ jobs, job.Writes op) ∧ op ∈ (held ++ quads).flatMap indexRows := by
  induction jobs with
  | nil => exact ⟨[], rfl, fun op => by simp⟩
  | cons job jobs ih =>
    obtain ⟨files, hfiles, hmem⟩ := run_spec fileRows h quads job
    obtain ⟨more, hmore, hmemMore⟩ := ih
    refine ⟨files ++ more, by simp [runAll, hfiles, hmore], fun op => ?_⟩
    rw [List.flatMap_append, List.mem_append, hmem, hmemMore]
    simp only [List.mem_cons, exists_eq_or_imp]
    tauto

theorem writes_of_isRow {op : Pending} (h : IsRow op) : ∃ job ∈ all, job.Writes op := by
  cases h with
  | triple o k => exact ⟨.triples o, List.mem_append_left _ (List.mem_map_of_mem o.mem_all), k, rfl⟩
  | quad o k => exact ⟨.named o, List.mem_append_right _ (List.mem_map_of_mem o.mem_all), k, rfl⟩

end MergeJob

theorem foldl_write_files (arrived : List IndexFile) :
    arrived.foldl (fun db file => db.write file.rows) db = db.write (arrived.flatMap IndexFile.rows) := by
  induction arrived generalizing db with
  | nil => rfl
  | cons file arrived ih => rw [List.foldl_cons, ih, List.flatMap_cons, RocksStorage.write_append]

namespace FileLoad

variable {config : Config} {finished : Nat → Bool} {l : FileLoad}

/-- The runs have the quads that were spilled, and there are runs once something was. -/
structure Tracks (l : FileLoad) : Prop where
  runs : (l.runs.getD .new).Holds l.load.state.spilled
  isNone : l.runs.isNone = l.load.state.spilled.isEmpty

theorem Tracks.insertEncoded (h : l.Tracks) (quad : EncodedQuad) : (l.insertEncoded config quad).2.Tracks := by
  unfold FileLoad.insertEncoded Load.insertEncoded
  simp only
  split
  · refine ⟨h.runs.add _, ?_⟩
    simp
  · exact ⟨h.runs, h.isNone⟩

/-- The files of a load, in whatever order they arrive, are the rows of what it held back. -/
theorem finish_eq (h : l.Tracks) (finished : Nat → Bool) (fileRows : Nat) :
    ∃ files, l.indexFiles fileRows = some files ∧ ∀ arrived, arrived.Perm files →
      l.finishBulk finished arrived = (Loader.finishBulk finished ⟨l.load.storage, some l.load.state⟩).storage := by
  obtain ⟨files, hfiles, hmem⟩ := MergeJob.runAll_spec fileRows h.runs l.load.state.quads MergeJob.all
  refine ⟨files, hfiles, fun arrived harr => ?_⟩
  have hsame : ∀ op, op ∈ (l.load.state.spilled ++ l.load.state.quads).flatMap indexRows ↔ op ∈ arrived.flatMap IndexFile.rows := by
    intro op
    rw [(harr.flatMap_right _).mem_iff, hmem]
    constructor
    · intro hop
      exact ⟨MergeJob.writes_of_isRow (indexRows_isRow _ op hop), hop⟩
    · exact fun hop => hop.2
  have hset := @Load.settleDictionary_settled finished l.load true
  have hempty : (l.load.state.quads.isEmpty && l.runs.isNone) = (l.load.state.spilled ++ l.load.state.quads).isEmpty := by
    rw [h.isNone]
    cases l.load.state.spilled <;> simp
  unfold FileLoad.finishBulk Loader.finishBulk
  simp only [hset.quads, hset.spilled, hset.graphs, hempty, Db.ingestFiles, Db.ingestQuads, foldl_write_files,
    write_congr (indexRows_isRow _) hsame]

end FileLoad

/-! ## Counting again -/

theorem recount_counts {r : RocksStorage} {Q : Finset EncodedQuad} {G : Finset TermId} (h : Index.Holds r.db.index Q G) :
    r.recount.quadCount = Q.card ∧ ∀ p, r.recount.predicateCounts.count p = (Q.filter (fun q => q.predicate = p)).card := by
  -- the rows of the two orders that are counted, as quads
  let rows : List EncodedQuad := r.db.index.dspo.toList.map (fun k => ⟨k.a, k.b, k.c, none⟩) ++
    r.db.index.gspo.toList.map (fun k => ⟨k.b, k.c, k.d, some k.a⟩)
  have hset : rows.toFinset = Q := by
    ext ⟨s, p, o, g⟩
    rw [List.mem_toFinset, List.mem_append, List.mem_map, List.mem_map]
    cases g with
    | none =>
      rw [← h.dspo]
      constructor
      · rintro (⟨⟨a, b, c⟩, hk, heq⟩ | ⟨k, -, heq⟩)
        · cases heq
          exact hk
        · cases heq
      · exact fun hk => .inl ⟨_, hk, rfl⟩
    | some g =>
      rw [← h.gspo]
      constructor
      · rintro (⟨k, -, heq⟩ | ⟨⟨a, b, c, d⟩, hk, heq⟩)
        · cases heq
        · cases heq
          exact hk
      · exact fun hk => .inr ⟨_, hk, rfl⟩
  have hnodup : rows.Nodup := by
    refine List.Nodup.append (r.db.index.dspo.nodup.map ?_) (r.db.index.gspo.nodup.map ?_) ?_
    · rintro ⟨a, b, c⟩ ⟨a', b', c'⟩ heq
      cases heq
      rfl
    · rintro ⟨a, b, c, d⟩ ⟨a', b', c', d'⟩ heq
      cases heq
      rfl
    · intro q hq hq'
      obtain ⟨k, -, rfl⟩ := List.mem_map.1 hq
      obtain ⟨k', -, heq⟩ := List.mem_map.1 hq'
      have hgraph : some k'.a = none := congrArg EncodedQuad.graphName heq
      cases hgraph
  have hpredicates : r.db.index.dspo.toList.map (·.b) ++ r.db.index.gspo.toList.map (·.c) = rows.map (·.predicate) := by
    simp only [rows, List.map_append, List.map_map]
    rfl
  refine ⟨?_, fun p => ?_⟩
  · simp only [RocksStorage.recount, hpredicates, List.length_map]
    rw [← hset, List.toFinset_card_of_nodup hnodup]
  · simp only [RocksStorage.recount, hpredicates]
    rw [Counter.count_foldl_increment, Counter.count_empty, Nat.zero_add, List.count_eq_countP, List.countP_map,
      List.countP_eq_length_filter, ← hset, ← List.toFinset_card_of_nodup (hnodup.filter _), List.toFinset_filter]
    congr 1
    refine Finset.filter_congr (fun q _ => ?_)
    simp

/-! ## The same quads one by one -/

/-- What inserting quads one after another adds to contents. -/
def Contents.insertAll (c : Contents) (quads : List EncodedQuad) : Contents := quads.foldl Contents.insert c

theorem Contents.insertAll_eq (c : Contents) (quads : List EncodedQuad) :
    (c.insertAll quads).quads = c.quads ∪ quads.toFinset ∧
      (c.insertAll quads).graphs = c.graphs ∪ (quads.filterMap (·.graphName)).toFinset := by
  unfold Contents.insertAll
  induction quads generalizing c with
  | nil => simp
  | cons q quads ih =>
    obtain ⟨hquads, hgraphs⟩ := ih (c.insert q)
    rw [List.foldl_cons, hquads, hgraphs]
    refine ⟨?_, ?_⟩
    · rw [List.toFinset_cons, Finset.union_insert, ← Finset.insert_union]
      rfl
    · cases hg : q.graphName with
      | none => simp [Contents.insert, hg, Index.record]
      | some g =>
        simp [Contents.insert, hg, Index.record]

theorem insertEncoded_ok {r : RocksStorage} (hs : r.scope = none) (q : EncodedQuad) :
    ∃ b, (r.insertEncoded q).1 = .ok b ∧ (r.insertEncoded q).2.scope = none := by
  unfold RocksStorage.insertEncoded
  split
  · exact ⟨false, rfl, hs⟩
  · simp only [RocksStorage.commitOps, hs]
    refine ⟨true, rfl, ?_⟩
    cases q.graphName <;> simp [RocksStorage.noteQuad, RocksStorage.noteGraph, hs]

/-- Outside a scope nothing is refused. -/
theorem insert_run {hash128 : StoredTerm → Hash} (X : Inline.Datatypes) {r : RocksStorage} {a : Storage.Scoped} (h : RocksStorage.Sim r a)
    (hs : r.scope = none) (quads : List EncodedQuad) :
    ∃ replies plain, r.run hash128 X (quads.map (fun q => .write (.insert q))) = some (replies, plain) ∧
      (∀ reply ∈ replies, reply.isOk = true) ∧ plain.scope = none ∧
      RocksStorage.Sim plain { a with current := a.current.insertAll quads } := by
  induction quads generalizing r a with
  | nil => exact ⟨[], r, rfl, fun reply hreply => (by cases hreply), hs, h⟩
  | cons q quads ih =>
    obtain ⟨b, hb, hscope⟩ := insertEncoded_ok hs q
    have hwrote := RocksStorage.insertEncoded_wrote h (Prod.ext hb rfl)
    obtain ⟨replies, plain, hrun, hok, hplain, hsim⟩ := ih hwrote.sim hscope
    refine ⟨.wrote (r.insertEncoded q).1 :: replies, plain, ?_, fun reply hreply => ?_, hplain, hsim⟩
    · rw [List.map_cons, RocksStorage.run]
      simp only [RocksStorage.step, RocksStorage.write, Option.bind_eq_bind, Option.bind_some, hrun]
      rfl
    · rcases List.mem_cons.1 hreply with rfl | hreply
      · rw [hb]
        rfl
      · exact hok reply hreply

namespace FileLoad

variable {config : Config}

/-- A load that is given quads. -/
def insertAll (config : Config) (l : FileLoad) (quads : List EncodedQuad) : FileLoad :=
  quads.foldl (fun l quad => (l.insertEncoded config quad).2) l

theorem mem_graphs_insert (l : Load) (q : EncodedQuad) (g : TermId) :
    g ∈ (match q.graphName with
      | some g => l.state.graphs.insert g
      | none => l.state.graphs) ↔ g ∈ l.state.graphs ∨ q.graphName = some g := by
  cases q.graphName with
  | none => simp
  | some g' =>
    simp only [SortedSet.mem_insert, Option.some.injEq]
    tauto

/-- What a load holds back after some quads, and that it holds back nothing else. -/
theorem insertAll_spec {l : FileLoad} (h : l.Tracks) (quads : List EncodedQuad) :
    (l.insertAll config quads).Tracks ∧ (l.insertAll config quads).load.storage = l.load.storage ∧
      (l.insertAll config quads).load.state.pending = l.load.state.pending ∧
      (l.insertAll config quads).load.state.spilled ++ (l.insertAll config quads).load.state.quads =
        l.load.state.spilled ++ l.load.state.quads ++ quads ∧
      ∀ g, g ∈ (l.insertAll config quads).load.state.graphs ↔ g ∈ l.load.state.graphs ∨ g ∈ quads.filterMap (·.graphName) := by
  unfold insertAll
  induction quads generalizing l with
  | nil => exact ⟨h, rfl, rfl, by simp, fun g => by simp⟩
  | cons q quads ih =>
    obtain ⟨htracks, hstorage, hpending, hheld, hgraphs⟩ := @ih (l.insertEncoded config q).2 (h.insertEncoded q)
    have hone : (l.insertEncoded config q).2.load.storage = l.load.storage ∧
        (l.insertEncoded config q).2.load.state.pending = l.load.state.pending ∧
        (l.insertEncoded config q).2.load.state.spilled ++ (l.insertEncoded config q).2.load.state.quads =
          l.load.state.spilled ++ l.load.state.quads ++ [q] ∧
        ∀ g, g ∈ (l.insertEncoded config q).2.load.state.graphs ↔ g ∈ l.load.state.graphs ∨ q.graphName = some g := by
      have hrecord := mem_graphs_insert l.load q
      unfold FileLoad.insertEncoded Load.insertEncoded
      simp only
      split
      · exact ⟨by trivial, by trivial, by simp, hrecord⟩
      · exact ⟨by trivial, by trivial, by simp, hrecord⟩
    obtain ⟨hstorage₁, hpending₁, hheld₁, hgraphs₁⟩ := hone
    refine ⟨htracks, hstorage.trans hstorage₁, hpending.trans hpending₁, ?_, fun g => ?_⟩
    · rw [List.foldl_cons, hheld, hheld₁]
      simp
    · rw [List.foldl_cons, hgraphs, hgraphs₁, List.filterMap_cons]
      cases q.graphName with
      | none => simp
      | some g' => simp [or_assoc, eq_comm]

end FileLoad

namespace Loader

open RocksStorage (Reachable)

variable {config : Config} {finished : Nat → Bool} {fx : StoredTerm → UInt64} {hash128 : StoredTerm → Hash} {X : Inline.Datatypes}
  {r : RocksStorage} {state : BulkState}

/-- Quads loaded in bulk, cut into runs and files in any way and taken in in any order, leave the
index orders, catalogue and counters that inserting them one by one does. -/
theorem load_as_inserts (h : Reachable hash128 X r)
    (hbegin : step config finished fx hash128 X ⟨r, none⟩ .beginBulkLoad = some (.scoped (.ok ()), ⟨r, some state⟩))
    (quads : List EncodedQuad) (fileRows : Nat) :
    ∃ files replies plain,
      (FileLoad.insertAll config ⟨⟨r, state⟩, none⟩ quads).indexFiles fileRows = some files ∧
      r.run hash128 X (quads.map (fun q => .write (.insert q))) = some (replies, plain) ∧
      (∀ reply ∈ replies, reply.isOk = true) ∧
      ∀ arrived, arrived.Perm files →
        let loaded := (FileLoad.insertAll config ⟨⟨r, state⟩, none⟩ quads).finishBulk finished arrived
        loaded.db.index = plain.db.index ∧ loaded.len = plain.len ∧ loaded.predicateCounts = plain.predicateCounts := by
  have hscope : r.scope = none := by
    by_contra hs
    simp [step, Option.isSome_iff_ne_none.2 hs] at hbegin
  have hstate : state.pending = [] ∧ state.quads = [] ∧ state.spilled = [] ∧ state.graphs = .empty := by
    simp only [step, hscope, Option.isSome_none, Bool.false_eq_true, if_false, startBulk] at hbegin
    cases hbegin
    exact ⟨rfl, rfl, rfl, rfl⟩
  obtain ⟨hpending, hquads, hspilled, hgraphs⟩ := hstate
  have htracks : FileLoad.Tracks ⟨⟨r, state⟩, none⟩ := ⟨by rw [hspilled]; exact Spilled.new_holds, by rw [hspilled]; rfl⟩
  obtain ⟨hall, hstorage, hpending', hheld, hnamed⟩ := @FileLoad.insertAll_spec config _ htracks quads
  obtain ⟨a, ha⟩ := h.good
  obtain ⟨replies, plain, hrun, hok, hplain, hsim⟩ := @insert_run hash128 X r a ha.sim hscope quads
  obtain ⟨files, hfiles, hfinish⟩ := FileLoad.finish_eq hall finished fileRows
  refine ⟨files, replies, plain, hfiles, hrun, hok, fun arrived harr => ?_⟩
  generalize FileLoad.insertAll config ⟨⟨r, state⟩, none⟩ quads = l at hall hstorage hpending' hheld hnamed hfiles hfinish
  have happlied : ∀ {s : RocksStorage}, s.scope = none → s.applied = s.db := fun hs => by simp only [RocksStorage.applied, hs]
  have hbefore := ha.sim.applied
  rw [happlied hscope] at hbefore
  have hafter := hsim.applied
  rw [happlied hplain] at hafter
  obtain ⟨hinserted, hrecorded⟩ := a.current.insertAll_eq quads
  -- what the load held back is the quads, and the catalogue of it their graphs
  have hquadsAll : l.load.state.spilled ++ l.load.state.quads = quads := by
    rw [hheld]
    simp [hspilled, hquads]
  have hgraphsAll : ∀ g, g ∈ l.load.state.graphs ↔ g ∈ quads.filterMap (·.graphName) := by
    intro g
    rw [hnamed]
    simp [hgraphs, SortedSet.not_mem_empty]
  have hset := @Load.settleDictionary_settled finished l.load true
  have hloaded : Index.Holds (finishBulk finished ⟨l.load.storage, some l.load.state⟩).storage.db.index
      (a.current.insertAll quads).quads (a.current.insertAll quads).graphs := by
    unfold finishBulk
    simp only [RocksStorage.recount_index, hset.pending, hset.quads, hset.spilled, hset.graphs, hquadsAll, hpending', hpending]
    generalize Load.settleDictionary finished l.load true = load at hset
    have hdb : ((load.storage.db.ingest load.state.dict).write []).index = r.db.index :=
      hset.index.trans (congrArg (fun s => s.db.index) hstorage)
    split
    · rename_i hempty
      rw [List.isEmpty_iff.1 hempty, hdb]
      exact hbefore
    · have hgraphsSet : l.load.state.graphs.toList.toFinset = (quads.filterMap (·.graphName)).toFinset := by
        ext g
        rw [List.mem_toFinset, List.mem_toFinset]
        exact hgraphsAll g
      rw [hinserted, hrecorded, ← hgraphsSet]
      refine holds_ingestQuads (hdb ▸ hbefore) (fun q hq g hg => ?_)
      exact (hgraphsAll g).2 (List.mem_filterMap.2 ⟨q, hq, hg⟩)
  rw [hfinish arrived harr]
  obtain ⟨counted, hcounted⟩ : ∃ counted : RocksStorage,
      (finishBulk finished ⟨l.load.storage, some l.load.state⟩).storage = counted.recount := ⟨_, rfl⟩
  rw [hcounted] at hloaded ⊢
  obtain ⟨hlen, hcounts⟩ := recount_counts (RocksStorage.recount_index counted ▸ hloaded)
  refine ⟨hloaded.unique hafter, ?_, Counter.ext (fun p => ?_)⟩
  · exact hlen.trans hsim.quadCount.symm
  · exact (hcounts p).trans (hsim.counts p).symm

/-- A quad given twice, a run after each, and files of one row. -/
theorem load_as_inserts_twice : ∃ state files replies plain,
    (FileLoad.insertAll ⟨1, 1, 0⟩ ⟨⟨.new, state⟩, none⟩ [⟨0, 1, 2, none⟩, ⟨0, 1, 2, none⟩]).indexFiles 1 = some files ∧
      RocksStorage.new.run (fun _ => 0) Dictionary.bare
        ([⟨0, 1, 2, none⟩, ⟨0, 1, 2, none⟩].map (fun q => .write (.insert q))) = some (replies, plain) ∧
      ((FileLoad.insertAll ⟨1, 1, 0⟩ ⟨⟨.new, state⟩, none⟩ [⟨0, 1, 2, none⟩, ⟨0, 1, 2, none⟩]).finishBulk
        (fun _ => true) files).len = plain.len := by
  obtain ⟨files, replies, plain, hfiles, hrun, -, hsame⟩ := @load_as_inserts ⟨1, 1, 0⟩ (fun _ => true) (fun _ => 0) (fun _ => 0)
    Dictionary.bare .new _ RocksStorage.new_reachable rfl [⟨0, 1, 2, none⟩, ⟨0, 1, 2, none⟩] 1
  exact ⟨_, files, replies, plain, hfiles, hrun, (hsame files (.refl _)).2.1⟩

end Loader

end Holos
