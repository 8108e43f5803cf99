import Dagayn.Distinct
import Dagayn.KeyTable
import Dagayn.Text
import Mathlib

/-!
# Embedding passes

`EmbeddingStore` of `embeddings_store.py`: the key its rows are looked up under, the
scan for nodes that need a vector, and the passes that compute and store them. The
key depends on the provider's name, which depends on the dimension the provider has
learned, and on which spellings are in the table.

What the source leaves to others is a parameter: the provider's answers, the Unicode
tables of Python's `str`, SHA-256, and which of several matching rows SQLite returns
first (`SqlChoices`). A row's rowid, the progress display and the log are left out.
-/

namespace Dagayn

/-! ## Keys -/

/-- Python's `str.casefold`, and the value of a decimal digit (`\d`). -/
structure PyText where
  casefold : String → String
  digit : Char → Option Nat

namespace PyText

variable (py : PyText)

/-- Whether `#dim=\d+` matches here. -/
def dimHere (l : List Char) : Bool :=
  "#dim=".toList.isPrefixOf l && (l.drop 5).head?.any fun c => (py.digit c).isSome

/-- `re.sub(r"#dim=\d+", "", …)`; the fuel is the length. -/
def stripDims : Nat → List Char → List Char
  | 0, l => l
  | _ + 1, [] => []
  | fuel + 1, c :: rest =>
      if py.dimHere (c :: rest) then
        stripDims fuel (((c :: rest).drop 5).dropWhile fun d => (py.digit d).isSome)
      else c :: stripDims fuel rest

def stripProviderDimensionSuffix (name : String) : String :=
  String.ofList (py.stripDims name.length name.toList)

/-- `_PROVIDER_DIM_VALUE_RE.search(…)`, read as an integer. -/
def dimValue : List Char → Option Nat
  | [] => none
  | c :: rest =>
      if py.dimHere (c :: rest) then
        some ((((c :: rest).drop 5).takeWhile fun d => (py.digit d).isSome).foldl
          (fun n d => 10 * n + (py.digit d).getD 0) 0)
      else dimValue rest

/-- One variant of a key, unless it is empty or there already. -/
def addCandidate (candidates : List String) (variant : String) : List String :=
  if variant = "" ∨ variant ∈ candidates then candidates else candidates ++ [variant]

def embeddingProviderLookupCandidates (providerKey providerName : String) : List String :=
  [providerKey, providerName].foldl (fun candidates key =>
    if key = "" then candidates
    else addCandidate (addCandidate candidates key) (py.stripProviderDimensionSuffix key)) []

end PyText

def embeddingProviderKey (providerName textMode : String) : String :=
  if (splitOnce "#text=" providerName).isSome then providerName
  else providerName ++ "#text=" ++ textMode

/-- `COLLATE NOCASE`: equal once ASCII letters are lowered. -/
def nocase (s : String) : List Char := s.toList.map Char.toLower

/-- Python's `a or b` on strings. -/
def orName (a b : String) : String := if a = "" then b else a

/-! ## The table -/

/-- What SQL leaves open: which row a `LIMIT 1` returns, and the order of groups with
equal counts. Both depend on the primary keys in the table only. -/
structure SqlChoices where
  /-- `SELECT provider FROM embeddings WHERE provider = ? COLLATE NOCASE LIMIT 1`. -/
  pick : List (String × String) → String → Option String
  pick_some : ∀ {keys cand p}, pick keys cand = some p →
    (∃ q, (q, p) ∈ keys) ∧ nocase p = nocase cand
  pick_none : ∀ {keys cand}, pick keys cand = none → ∀ e ∈ keys, nocase e.2 ≠ nocase cand
  /-- `SELECT provider … GROUP BY provider ORDER BY COUNT(*) DESC`. -/
  groups : List (String × String) → List String
  groups_mem : ∀ {keys p}, p ∈ groups keys ↔ ∃ q, (q, p) ∈ keys
  groups_sorted : ∀ keys, (groups keys).Pairwise fun a b =>
    keys.countP (fun e => e.2 = b) ≤ keys.countP (fun e => e.2 = a)

/-- A row of `embeddings`. -/
structure VectorRow (V : Type) where
  qualifiedName : String
  vector : V
  textHash : String
  provider : String

variable {V : Type}

/-- `PRIMARY KEY (qualified_name, provider)`. -/
def VectorRow.pk (r : VectorRow V) : String × String := (r.qualifiedName, r.provider)

/-- A graph node, with the text `_node_to_text` makes of it. -/
structure TextNode where
  kind : String
  qualifiedName : String
  text : String
deriving DecidableEq, Repr

/-- The nodes of a graph: qualified names are unique. -/
structure GraphNodes where
  nodes : List TextNode
  names_nodup : (nodes.map TextNode.qualifiedName).Nodup

structure EmbedWorkItem where
  qualifiedName : String
  text : String
  textHash : String
deriving DecidableEq, Repr

/-- `EmbeddingProvider`. The name is a function of the dimension it knows; `embed`
gets the number of requests made before, since an endpoint may answer differently
each time, and on failure tells whether a single bad input could be the cause. -/
structure EmbeddingProvider (V : Type) where
  name : Option Nat → String
  name_ne : ∀ d, name d ≠ ""
  preferredBatchSize : Nat
  batch_pos : 0 < preferredBatchSize
  embed : Nat → List String → Except Bool (List V)

/-- What an `EmbeddingStore` is built with. -/
structure EmbedConfig (V : Type) where
  py : PyText
  sql : SqlChoices
  provider : EmbeddingProvider V
  textMode : String
  providerKeyOverride : Option String
  sha256 : String → String
  /-- `len` of a vector. -/
  len : V → Nat

/-- What a pass changes: the table, the dimension the provider knows, the number of
requests, and the rows written so far. -/
structure EmbedState (V : Type) where
  table : KeyTable (VectorRow.pk (V := V))
  dimension : Option Nat
  calls : Nat := 0
  written : List (VectorRow V) := []

def EmbedState.keys (s : EmbedState V) : List (String × String) :=
  s.table.rows.map fun r => r.2.pk

namespace EmbedConfig

variable (c : EmbedConfig V)

def providerKey (dimension : Option Nat) : String :=
  c.providerKeyOverride.getD (embeddingProviderKey (c.provider.name dimension) c.textMode)

/-- The key `_store_vectors` writes under: `provider_key or provider.name`. -/
def writeKey (dimension : Option Nat) : String :=
  orName (c.providerKey dimension) (c.provider.name dimension)

def persistedKeyForSameIdentity (s : EmbedState V) : Option String :=
  let wanted := c.py.casefold (c.py.stripProviderDimensionSuffix (c.writeKey s.dimension))
  (c.sql.groups s.keys).find? fun p =>
    p ≠ "" && c.py.casefold (c.py.stripProviderDimensionSuffix p) = wanted

def seedProviderDimensionFromStore (s : EmbedState V) : EmbedState V :=
  match s.dimension with
  | some _ => s
  | none =>
      match c.persistedKeyForSameIdentity s with
      | some persisted => { s with dimension := c.py.dimValue persisted.toList }
      | none => s

/-- The part of `_provider_key_for_lookup` after the seeding. -/
def lookupKey (s : EmbedState V) : String :=
  ((c.py.embeddingProviderLookupCandidates (c.providerKey s.dimension)
      (c.provider.name s.dimension)).findSome? fun cand =>
    (c.sql.pick s.keys cand).filter (· ≠ "")).getD (c.writeKey s.dimension)

def providerKeyForLookup (s : EmbedState V) : EmbedState V × String :=
  let s := c.seedProviderDimensionFromStore s
  (s, c.lookupKey s)

def upToDate (s : EmbedState V) (key : String) (n : TextNode) : Bool :=
  (s.table.get (n.qualifiedName, key)).any fun r => r.2.textHash = c.sha256 n.text

def workItem (n : TextNode) : EmbedWorkItem := ⟨n.qualifiedName, n.text, c.sha256 n.text⟩

def candidateNodes (nodes : GraphNodes) : List TextNode :=
  nodes.nodes.filter fun n => n.kind ≠ "File"

def prepareEmbedWork (s : EmbedState V) (nodes : GraphNodes) :
    EmbedState V × List EmbedWorkItem :=
  let r := c.providerKeyForLookup s
  let providerName := orName r.2 (c.provider.name r.1.dimension)
  (r.1, ((candidateNodes nodes).filter fun n => !c.upToDate r.1 providerName n).map c.workItem)

/-! ## Passes -/

def storeVectors (s : EmbedState V) (items : List EmbedWorkItem) (vectors : List V) :
    EmbedState V :=
  let rows := (items.zip vectors).map fun e =>
    (⟨e.1.qualifiedName, e.2, e.1.textHash, c.writeKey s.dimension⟩ : VectorRow V)
  { s with table := s.table.upsertAll rows, written := s.written ++ rows }

/-- Concrete providers learn their length from the first response. -/
def learn (s : EmbedState V) (vectors : List V) : EmbedState V :=
  { s with dimension := s.dimension.or (vectors.head?.map c.len) }

/-- One turn of `_embed_nodes_individually_after_batch_failure`; the number counts the
failures. -/
def embedOne (acc : EmbedState V × Nat) (item : EmbedWorkItem) : EmbedState V × Nat :=
  let s := { acc.1 with calls := acc.1.calls + 1 }
  match c.provider.embed acc.1.calls [item.text] with
  | .error _ => (s, acc.2 + 1)
  | .ok vectors =>
      if vectors.length ≠ 1 then (s, acc.2 + 1)
      else (c.storeVectors (c.learn s vectors) [item] vectors, acc.2)

/-- One batch. The flag tells whether it raised. -/
def embedBatch (s : EmbedState V) (batch : List EmbedWorkItem) : EmbedState V × Bool :=
  let s' := { s with calls := s.calls + 1 }
  match c.provider.embed s.calls (batch.map EmbedWorkItem.text) with
  | .error oneBadInput =>
      if 1 < batch.length && oneBadInput then
        let r := batch.foldl c.embedOne (s', 0)
        (r.1, r.2 ≠ 0)
      else (s', true)
  | .ok vectors =>
      if vectors.length ≠ batch.length then (s', true)
      else (c.storeVectors (c.learn s' vectors) batch vectors, false)

/-- The loop over the batches, from the item at `i` on; `late` is the clock reading
before a batch. Returns the number embedded and `last_remaining`, or `none` where a
batch raised. -/
def embedFrom (late : Nat → Bool) (total : Nat) :
    Nat → EmbedState V → List (List EmbedWorkItem) → EmbedState V × Option (Nat × Nat)
  | _, s, [] => (s, some (0, 0))
  | i, s, batch :: batches =>
      if i ≠ 0 && late i then (s, some (0, total - i))
      else
        let r := c.embedBatch s batch
        if r.2 then (r.1, none)
        else
          let q := embedFrom late total (i + c.provider.preferredBatchSize) r.1 batches
          (q.1, q.2.map fun e => (batch.length + e.1, e.2))

def embedPrepared (late : Nat → Bool) (s : EmbedState V) (toEmbed : List EmbedWorkItem) :
    EmbedState V × Option (Nat × Nat) :=
  if toEmbed = [] then (s, some (0, 0))
  else
    c.embedFrom late toEmbed.length 0 (c.providerKeyForLookup s).1
      (chunksOf c.provider.preferredBatchSize toEmbed)

/-- One pass: what it was given, the rows it stored and what it reported. -/
structure PassReport (V : Type) where
  items : List EmbedWorkItem
  stored : List (VectorRow V)
  embedded : Nat
  lastRemaining : Nat

/-- A sequence of passes, none of which raises, that drains the items: each starts
where the one before stopped. -/
inductive Passes : EmbedState V → List EmbedWorkItem → EmbedState V → List (PassReport V) → Prop
  | done {s : EmbedState V} : Passes s [] s []
  | pass {s s' s'' : EmbedState V} {items : List EmbedWorkItem} {late : Nat → Bool}
      {embedded lastRemaining : Nat} {reports : List (PassReport V)} :
      c.embedPrepared late s items = (s', some (embedded, lastRemaining)) →
      Passes s' (items.drop embedded) s'' reports →
      Passes s items s''
        (⟨items, s'.written.drop s.written.length, embedded, lastRemaining⟩ :: reports)

/-! ## What a settled store is -/

/-- The rows stored are those of the first `embedded` items, the numbers add up, and
at least one batch has been run. -/
def PassReport.Sound (r : PassReport V) : Prop :=
  r.stored.map (fun row => (row.qualifiedName, row.textHash))
      = (r.items.take r.embedded).map (fun item => (item.qualifiedName, item.textHash)) ∧
    r.embedded + r.lastRemaining = r.items.length ∧
    min c.provider.preferredBatchSize r.items.length ≤ r.embedded

/-- The length of the first vector stored for a batch, as its requests are answered. -/
def batchLength (calls : Nat) (batch : List EmbedWorkItem) : Option Nat :=
  match c.provider.embed calls (batch.map EmbedWorkItem.text) with
  | .ok vectors => vectors.head?.map c.len
  | .error _ =>
      match batch with
      | [] => none
      | item :: _ =>
          match c.provider.embed (calls + 1) [item.text] with
          | .ok vectors => vectors.head?.map c.len
          | .error _ => none

def firstLength (calls : Nat) (work : List EmbedWorkItem) : Option Nat :=
  c.batchLength calls (work.take c.provider.preferredBatchSize)

def needed (s : EmbedState V) (nodes : GraphNodes) : List TextNode :=
  (candidateNodes nodes).filter fun n =>
    !c.upToDate s (orName (c.lookupKey s) (c.provider.name s.dimension)) n

/-- The key rows of a run are written under: that of the dimension the provider
knows, or learns from the first response. -/
def runKey (s : EmbedState V) (nodes : GraphNodes) : String :=
  c.writeKey (s.dimension.or (c.firstLength s.calls ((c.needed s nodes).map c.workItem)))

/-- Every node is up to date under the lookup key already; or the query for the key
that rows are written under finds that very spelling once they are there, and what is
up to date under the lookup key is so under the key written. -/
def Settles (s : EmbedState V) (nodes : GraphNodes) : Prop :=
  let s := c.seedProviderDimensionFromStore s
  let key := orName (c.lookupKey s) (c.provider.name s.dimension)
  let new := c.runKey s nodes
  (∀ n ∈ candidateNodes nodes, c.upToDate s key n = true) ∨
  (c.sql.pick (addKeys s.keys ((c.needed s nodes).map fun n => (n.qualifiedName, new))) new
      = some new ∧
    ∀ n ∈ candidateNodes nodes, c.upToDate s key n = true → c.upToDate s new n = true)

/-! ## One batch, one pass, a run of passes -/

variable {c}

/-- `s'` is `s` with rows for the items, all under the key of the dimension that is
known in the end. -/
structure Stores (s s' : EmbedState V) (items : List EmbedWorkItem) : Prop where
  rows : ∃ rows : List (VectorRow V),
    rows.map (fun row => (row.qualifiedName, row.textHash))
        = items.map (fun item => (item.qualifiedName, item.textHash)) ∧
      (∀ row ∈ rows, row.provider = c.writeKey s'.dimension) ∧
      s'.table = s.table.upsertAll rows ∧ s'.written = s.written ++ rows
  keep : ∀ d, s.dimension = some d → s'.dimension = some d
  known : items ≠ [] → s'.dimension.isSome = true

theorem Stores.refl (s : EmbedState V) : Stores (c := c) s s [] :=
  ⟨⟨[], rfl, fun _ h => absurd h List.not_mem_nil, rfl, (List.append_nil _).symm⟩,
    fun _ h => h, fun h => absurd rfl h⟩

theorem Stores.trans {s s₁ s₂ : EmbedState V} {as bs : List EmbedWorkItem}
    (h₁ : Stores (c := c) s s₁ as) (h₂ : Stores (c := c) s₁ s₂ bs) :
    Stores (c := c) s s₂ (as ++ bs) := by
  obtain ⟨⟨r₁, hm₁, hk₁, ht₁, hw₁⟩, hkeep₁, hknown₁⟩ := h₁
  obtain ⟨⟨r₂, hm₂, hk₂, ht₂, hw₂⟩, hkeep₂, hknown₂⟩ := h₂
  refine ⟨⟨r₁ ++ r₂, ?_, ?_, ?_, ?_⟩, fun d hd => hkeep₂ d (hkeep₁ d hd), fun hne => ?_⟩
  · rw [List.map_append, List.map_append, hm₁, hm₂]
  · intro row hrow
    rcases List.mem_append.mp hrow with hrow | hrow
    · -- the dimension was known when this row was written, and has not changed
      have hne : as ≠ [] := by
        rintro rfl
        rw [List.map_nil, List.map_eq_nil_iff] at hm₁
        rw [hm₁] at hrow
        exact absurd hrow List.not_mem_nil
      obtain ⟨d, hd⟩ := Option.isSome_iff_exists.mp (hknown₁ hne)
      rw [hk₁ row hrow, hd, hkeep₂ d hd]
    · exact hk₂ row hrow
  · rw [ht₂, ht₁, KeyTable.upsertAll_append]
  · rw [hw₂, hw₁, List.append_assoc]
  · by_cases has : as = []
    · subst has
      exact hknown₂ hne
    · obtain ⟨d, hd⟩ := Option.isSome_iff_exists.mp (hknown₁ has)
      rw [hkeep₂ d hd]
      rfl

theorem stores_storeVectors {s : EmbedState V} {items : List EmbedWorkItem} {vectors : List V}
    (hlen : vectors.length = items.length) (hdim : items ≠ [] → s.dimension.isSome = true) :
    Stores (c := c) s (c.storeVectors s items vectors) items := by
  refine ⟨⟨_, ?_, ?_, rfl, rfl⟩, fun _ h => h, hdim⟩
  · rw [List.map_map]
    have hfst : (items.zip vectors).map Prod.fst = items :=
      List.map_fst_zip (Nat.le_of_eq hlen.symm)
    have hcomp : ((fun row : VectorRow V => (row.qualifiedName, row.textHash)) ∘
        fun e : EmbedWorkItem × V =>
          (⟨e.1.qualifiedName, e.2, e.1.textHash, c.writeKey s.dimension⟩ : VectorRow V))
        = (fun item : EmbedWorkItem => (item.qualifiedName, item.textHash)) ∘ Prod.fst := rfl
    rw [hcomp, ← List.map_map, hfst]
  · intro row hrow
    obtain ⟨e, -, rfl⟩ := List.mem_map.mp hrow
    rfl

theorem Stores.of_learn {s s₀ s' : EmbedState V} {items : List EmbedWorkItem}
    (h : Stores (c := c) s₀ s' items) (ht : s₀.table = s.table) (hw : s₀.written = s.written)
    (hd : ∀ d, s.dimension = some d → s₀.dimension = some d) : Stores (c := c) s s' items := by
  obtain ⟨⟨rows, hm, hk, htable, hwritten⟩, hkeep, hknown⟩ := h
  exact ⟨⟨rows, hm, hk, ht ▸ htable, hw ▸ hwritten⟩, fun d h => hkeep d (hd d h), hknown⟩

theorem learn_keep {s : EmbedState V} {vectors : List V} {d : Nat} (h : s.dimension = some d) :
    (c.learn s vectors).dimension = some d := by
  change s.dimension.or _ = _
  rw [h]
  rfl

theorem learn_isSome {s : EmbedState V} {vectors : List V} (h : vectors ≠ []) :
    (c.learn s vectors).dimension.isSome = true := by
  obtain ⟨v, vs, rfl⟩ := List.exists_cons_of_ne_nil h
  change (s.dimension.or _).isSome = true
  cases s.dimension <;> rfl

theorem stores_answer {s : EmbedState V} {items : List EmbedWorkItem} {vectors : List V}
    (hlen : vectors.length = items.length) (hne : items ≠ []) :
    Stores (c := c) s
      (c.storeVectors (c.learn { s with calls := s.calls + 1 } vectors) items vectors) items := by
  have hvec : vectors ≠ [] := by
    rintro rfl
    exact hne (List.eq_nil_of_length_eq_zero hlen.symm)
  exact (stores_storeVectors hlen fun _ => learn_isSome hvec).of_learn rfl rfl
    fun d hd => learn_keep hd

theorem embedOne_cases (acc : EmbedState V × Nat) (item : EmbedWorkItem) :
    (c.embedOne acc item).2 = acc.2 + 1 ∨
    ((c.embedOne acc item).2 = acc.2 ∧ Stores (c := c) acc.1 (c.embedOne acc item).1 [item] ∧
      (c.embedOne acc item).1.dimension = acc.1.dimension.or
        (match c.provider.embed acc.1.calls [item.text] with
          | .ok vectors => vectors.head?.map c.len
          | .error _ => none)) := by
  unfold embedOne
  cases hembed : c.provider.embed acc.1.calls [item.text] with
  | error bad => exact .inl rfl
  | ok vectors =>
      by_cases hlen : vectors.length = 1
      · refine .inr ?_
        dsimp only
        rw [if_neg (not_not_intro hlen)]
        exact ⟨rfl, stores_answer hlen (List.cons_ne_nil _ _), rfl⟩
      · dsimp only
        rw [if_pos hlen]
        exact .inl rfl

/-- The retry loop: without a failure every item is stored, and the first answer
gives the dimension. -/
theorem embedOnes_stores : ∀ (items : List EmbedWorkItem) (acc : EmbedState V × Nat),
    acc.2 ≤ (items.foldl c.embedOne acc).2 ∧
      ((items.foldl c.embedOne acc).2 = acc.2 →
        Stores (c := c) acc.1 (items.foldl c.embedOne acc).1 items)
  | [], acc => ⟨Nat.le_refl _, fun _ => .refl acc.1⟩
  | item :: items, acc => by
      rw [List.foldl_cons]
      obtain ⟨hle, hrest⟩ := embedOnes_stores items (c.embedOne acc item)
      rcases embedOne_cases (c := c) acc item with hfail | ⟨hsame, hst, -⟩
      · exact ⟨by omega, fun heq => by omega⟩
      · exact ⟨by omega, fun heq => hst.trans (hrest (by omega))⟩

theorem embedBatch_stores {s s' : EmbedState V} {batch : List EmbedWorkItem}
    (h : c.embedBatch s batch = (s', false)) (hne : batch ≠ []) :
    Stores (c := c) s s' batch ∧
      s'.dimension = s.dimension.or (c.batchLength s.calls batch) := by
  unfold embedBatch at h
  unfold batchLength
  cases hembed : c.provider.embed s.calls (batch.map EmbedWorkItem.text) with
  | error bad =>
      rw [hembed] at h
      dsimp only at h
      split at h
      · obtain ⟨item, items, rfl⟩ := List.exists_cons_of_ne_nil hne
        obtain ⟨h₁, h₂⟩ := Prod.mk.inj h
        obtain ⟨-, hst⟩ := embedOnes_stores (c := c) (item :: items)
          ({ s with calls := s.calls + 1 }, 0)
        have hzero : ((item :: items).foldl c.embedOne ({ s with calls := s.calls + 1 }, 0)).2
            = 0 := not_not.mp (of_decide_eq_false h₂)
        have hall := hst hzero
        rw [h₁] at hall
        refine ⟨hall.of_learn rfl rfl fun d hd => hd, ?_⟩
        -- the first item is answered, and what it teaches stays
        obtain ⟨hle, hrest⟩ := embedOnes_stores (c := c) items
          (c.embedOne ({ s with calls := s.calls + 1 }, 0) item)
        rw [← List.foldl_cons, hzero] at hle hrest
        rcases embedOne_cases (c := c) ({ s with calls := s.calls + 1 }, 0) item with
          hfail | ⟨hsame, hone, hdim⟩
        · rw [hfail] at hle
          exact absurd hle (Nat.not_succ_le_zero _)
        · obtain ⟨d, hd⟩ := Option.isSome_iff_exists.mp (hone.known (List.cons_ne_nil _ _))
          have hkeep := (hrest hsame.symm).keep d hd
          rw [h₁] at hkeep
          rw [hkeep, ← hd, hdim]
      · exact absurd (Prod.mk.inj h).2 (by decide)
  | ok vectors =>
      rw [hembed] at h
      dsimp only at h
      split at h
      · exact absurd (Prod.mk.inj h).2 (by decide)
      · rename_i hlen
        rw [← (Prod.mk.inj h).1]
        exact ⟨stores_answer (not_not.mp hlen) hne, rfl⟩

theorem take_length_take_add {α : Type} (n e : Nat) (l : List α) :
    l.take ((l.take n).length + e) = l.take n ++ (l.drop n).take e := by
  by_cases hn : n ≤ l.length
  · rw [List.length_take, Nat.min_eq_left hn, List.take_add]
  · have hle : l.length ≤ n := by omega
    rw [List.take_of_length_le hle, List.drop_eq_nil_of_le hle, List.take_nil, List.append_nil,
      List.take_of_length_le (Nat.le_add_right _ _)]

/-- The loop stores a prefix of the items it has left, of which it reports the rest. -/
theorem embedFrom_stores {late : Nat → Bool} {total : Nat} : ∀ (k : Nat)
    (items : List EmbedWorkItem) {i e rem : Nat} {s s' : EmbedState V}, items.length ≤ k →
    (items ≠ [] → total = i + items.length) →
    c.embedFrom late total i s (chunksOf c.provider.preferredBatchSize items)
      = (s', some (e, rem)) →
    Stores (c := c) s s' (items.take e) ∧ e + rem = items.length ∧
      (i = 0 → min c.provider.preferredBatchSize items.length ≤ e ∧
        (items ≠ [] → s'.dimension = s.dimension.or (c.firstLength s.calls items)))
  | k, [], i, e, rem, s, s', _, _, h => by
      rw [chunksOf_nil c.provider.batch_pos] at h
      obtain ⟨rfl, h₂⟩ := Prod.mk.inj h
      rw [Option.some.injEq, Prod.mk.injEq] at h₂
      obtain ⟨rfl, rfl⟩ := h₂
      exact ⟨.refl s, rfl, fun _ => ⟨Nat.min_le_right _ _, fun h => absurd rfl h⟩⟩
  | 0, item :: items, i, e, rem, s, s', hk, _, _ => absurd hk (by simp)
  | k + 1, item :: items, i, e, rem, s, s', hk, htotal, h => by
      have hne : item :: items ≠ [] := List.cons_ne_nil _ _
      generalize hl : item :: items = l at hne hk htotal h ⊢
      have hbatch := c.provider.batch_pos
      have hpos : 0 < l.length := List.length_pos_iff.mpr hne
      rw [chunksOf_eq_cons hbatch hne] at h
      rw [embedFrom] at h
      split at h
      · rename_i hlate
        obtain ⟨rfl, h₂⟩ := Prod.mk.inj h
        rw [Option.some.injEq, Prod.mk.injEq] at h₂
        obtain ⟨rfl, rfl⟩ := h₂
        have htot := htotal hne
        have hi : i ≠ 0 := by
          intro hi
          subst hi
          simp at hlate
        exact ⟨by rw [List.take_zero]; exact .refl s, by omega, fun h0 => absurd h0 hi⟩
      · dsimp only at h
        split at h
        · exact absurd (Prod.mk.inj h).2 (by simp)
        · rename_i hraise
          have hb : c.embedBatch s (l.take c.provider.preferredBatchSize)
              = ((c.embedBatch s (l.take c.provider.preferredBatchSize)).1, false) :=
            Prod.ext rfl (Bool.not_eq_true _ ▸ hraise)
          have htake : l.take c.provider.preferredBatchSize ≠ [] := by
            rw [ne_eq, List.take_eq_nil_iff, not_or]
            exact ⟨by omega, hne⟩
          obtain ⟨hst, hdim⟩ := embedBatch_stores hb htake
          obtain ⟨h₁, h₂⟩ := Prod.mk.inj h
          rw [Option.map_eq_some_iff] at h₂
          obtain ⟨⟨e', rem'⟩, hq, hpair⟩ := h₂
          rw [Prod.mk.injEq] at hpair
          obtain ⟨rfl, rfl⟩ := hpair
          obtain ⟨hst', hsum, -⟩ := embedFrom_stores k (l.drop c.provider.preferredBatchSize)
            (i := i + c.provider.preferredBatchSize) (by rw [List.length_drop]; omega)
            (fun hdrop => by
              have hlt : c.provider.preferredBatchSize < l.length := by
                by_contra hge
                exact hdrop (List.drop_eq_nil_of_le (by omega))
              have htot := htotal hne
              rw [List.length_drop]
              omega)
            (Prod.ext h₁ hq)
          refine ⟨?_, ?_, fun _ => ?_⟩
          · have hboth := hst.trans hst'
            rw [← take_length_take_add] at hboth
            exact hboth
          · rw [List.length_drop] at hsum
            rw [List.length_take]
            omega
          · refine ⟨by rw [List.length_take]; omega, fun _ => ?_⟩
            obtain ⟨d, hd⟩ := Option.isSome_iff_exists.mp (hst.known htake)
            rw [hst'.keep d hd, ← hd, hdim]
            rfl

/-! ## Seeding -/

theorem seed_table (s : EmbedState V) :
    (c.seedProviderDimensionFromStore s).table = s.table ∧
      (c.seedProviderDimensionFromStore s).written = s.written ∧
      (c.seedProviderDimensionFromStore s).calls = s.calls := by
  unfold seedProviderDimensionFromStore
  split
  · exact ⟨rfl, rfl, rfl⟩
  · split <;> exact ⟨rfl, rfl, rfl⟩

theorem seed_of_known {s : EmbedState V} {d : Nat} (h : s.dimension = some d) :
    c.seedProviderDimensionFromStore s = s := by
  unfold seedProviderDimensionFromStore
  rw [h]

theorem seed_seed (s : EmbedState V) :
    c.seedProviderDimensionFromStore (c.seedProviderDimensionFromStore s)
      = c.seedProviderDimensionFromStore s := by
  cases hd : s.dimension with
  | some d => rw [seed_of_known hd, seed_of_known hd]
  | none =>
      have hseed : c.seedProviderDimensionFromStore s
          = match c.persistedKeyForSameIdentity s with
            | some persisted => { s with dimension := c.py.dimValue persisted.toList }
            | none => s := by
        conv_lhs => rw [seedProviderDimensionFromStore, hd]
      cases hp : c.persistedKeyForSameIdentity s with
      | none =>
          rw [hp] at hseed
          rw [hseed, hseed]
      | some persisted =>
          rw [hp] at hseed
          cases hv : c.py.dimValue persisted.toList with
          | some d => exact seed_of_known (d := d) (by rw [hseed]; exact hv)
          | none =>
              have hsame : c.seedProviderDimensionFromStore s = s := by
                rw [hseed]
                dsimp only
                rw [hv]
                cases s
                cases hd
                rfl
              rw [hsame, hsame]

/-! ## Passes -/

theorem embedPrepared_stores {late : Nat → Bool} {s s' : EmbedState V}
    {items : List EmbedWorkItem} {e rem : Nat}
    (h : c.embedPrepared late s items = (s', some (e, rem))) :
    Stores (c := c) s s' (items.take e) ∧ e + rem = items.length ∧
      min c.provider.preferredBatchSize items.length ≤ e ∧
      (items ≠ [] → s'.dimension = (c.seedProviderDimensionFromStore s).dimension.or
        (c.firstLength s.calls items)) ∧ (items = [] → s' = s) := by
  unfold embedPrepared at h
  split at h
  · rename_i hnil
    subst hnil
    obtain ⟨rfl, h₂⟩ := Prod.mk.inj h
    rw [Option.some.injEq, Prod.mk.injEq] at h₂
    obtain ⟨rfl, rfl⟩ := h₂
    exact ⟨.refl s, rfl, Nat.min_le_right _ _, fun hne => absurd rfl hne, fun _ => rfl⟩
  · rename_i hne
    obtain ⟨ht, hw, hcalls⟩ := seed_table (c := c) s
    obtain ⟨hst, hsum, hfirst⟩ := embedFrom_stores items.length items (Nat.le_refl _)
      (fun _ => (Nat.zero_add _).symm) h
    obtain ⟨hmin, hdim⟩ := hfirst rfl
    refine ⟨hst.of_learn ht hw fun d hd => ?_, hsum, hmin, fun _ => ?_, fun hnil => absurd hnil hne⟩
    · change (c.seedProviderDimensionFromStore s).dimension = some d
      rw [seed_of_known hd, hd]
    · rw [← hcalls]
      exact hdim hne

theorem passes_stores {s s' : EmbedState V} {items : List EmbedWorkItem}
    {reports : List (PassReport V)} (h : Passes c s items s' reports) :
    Stores (c := c) s s' items ∧ (∀ r ∈ reports, r.Sound c) ∧
      (items ≠ [] → s'.dimension = (c.seedProviderDimensionFromStore s).dimension.or
        (c.firstLength s.calls items)) ∧ (items = [] → s' = s) := by
  induction h with
  | done => exact ⟨.refl _, fun _ hr => absurd hr List.not_mem_nil, fun h => absurd rfl h,
      fun _ => rfl⟩
  | pass hpass hrest ih =>
      rename_i s s₁ s₂ items late e rem reports
      obtain ⟨hst, hsum, hmin, hdim, hnil⟩ := embedPrepared_stores hpass
      obtain ⟨hst', hsound, -, hnil'⟩ := ih
      have hall := hst.trans hst'
      rw [List.take_append_drop] at hall
      refine ⟨hall, ?_, fun hne => ?_, fun h => ?_⟩
      · intro r hr
        rcases List.mem_cons.mp hr with rfl | hr
        · obtain ⟨rows, hm, -, -, hw⟩ := hst.rows
          refine ⟨?_, hsum, hmin⟩
          change (s₁.written.drop s.written.length).map _ = _
          rw [hw, List.drop_left, hm]
        · exact hsound r hr
      · have hpos : 0 < items.length := List.length_pos_iff.mpr hne
        have hbatch := c.provider.batch_pos
        have htake : items.take e ≠ [] := by
          rw [ne_eq, List.take_eq_nil_iff, not_or]
          exact ⟨by omega, hne⟩
        obtain ⟨d, hd⟩ := Option.isSome_iff_exists.mp (hst.known htake)
        rw [hst'.keep d hd, ← hd, hdim hne]
      · rw [hnil' (by rw [h, List.drop_nil]), hnil h]

/-! ## The key found for the key written -/

theorem writeKey_ne (d : Option Nat) : c.writeKey d ≠ "" := by
  unfold writeKey orName
  split
  · exact c.provider.name_ne d
  · assumption

theorem addCandidate_cons (a : String) (l : List String) (v : String) :
    ∃ l', PyText.addCandidate (a :: l) v = a :: l' := by
  unfold PyText.addCandidate
  split
  · exact ⟨l, rfl⟩
  · exact ⟨l ++ [v], rfl⟩

theorem candidates_head (d : Option Nat) :
    ∃ rest, c.py.embeddingProviderLookupCandidates (c.providerKey d) (c.provider.name d)
      = c.writeKey d :: rest := by
  have hname := c.provider.name_ne d
  have hnil : ∀ v : String, v ≠ "" → PyText.addCandidate [] v = [v] := by
    intro v hv
    simp [PyText.addCandidate, hv]
  unfold PyText.embeddingProviderLookupCandidates
  simp only [List.foldl_cons, List.foldl_nil, if_neg hname]
  by_cases hkey : c.providerKey d = ""
  · rw [if_pos hkey, hnil _ hname, writeKey, orName, if_pos hkey]
    exact addCandidate_cons _ _ _
  · rw [if_neg hkey, hnil _ hkey, writeKey, orName, if_neg hkey]
    obtain ⟨l₁, h₁⟩ := addCandidate_cons (c.providerKey d) []
      (c.py.stripProviderDimensionSuffix (c.providerKey d))
    obtain ⟨l₂, h₂⟩ := addCandidate_cons (c.providerKey d) l₁ (c.provider.name d)
    rw [h₁, h₂]
    exact addCandidate_cons _ _ _

theorem ne_of_nocase {p q : String} (h : nocase p = nocase q) (hq : q ≠ "") : p ≠ "" := by
  rintro rfl
  refine hq ?_
  have hnil : nocase q = [] := h.symm
  rw [nocase, List.map_eq_nil_iff] at hnil
  exact String.toList_inj.mp hnil

theorem lookupKey_of_pick {s : EmbedState V} {p : String}
    (h : c.sql.pick s.keys (c.writeKey s.dimension) = some p) : c.lookupKey s = p := by
  have hp : p ≠ "" := ne_of_nocase (c.sql.pick_some h).2 (writeKey_ne s.dimension)
  obtain ⟨rest, hrest⟩ := candidates_head (c := c) s.dimension
  unfold lookupKey
  have hfilter : (some p).filter (fun x => decide (x ≠ "")) = some p := by
    simp [Option.filter, hp]
  rw [hrest, List.findSome?_cons, h, hfilter]
  rfl

/-- Once a row is stored under the key written, the query for that key finds it or
another spelling of it. -/
theorem exists_pick {s : EmbedState V} {q : String}
    (h : (q, c.writeKey s.dimension) ∈ s.keys) :
    ∃ p, c.sql.pick s.keys (c.writeKey s.dimension) = some p := by
  cases hp : c.sql.pick s.keys (c.writeKey s.dimension) with
  | some p => exact ⟨p, rfl⟩
  | none => exact absurd rfl (c.sql.pick_none hp _ h)

/-! ## The rows a run leaves -/

variable {s s' : EmbedState V} {nodes : GraphNodes} {ns : List TextNode}

theorem upToDate_of_mem (hst : Stores (c := c) s s' (ns.map c.workItem))
    (hnodup : (ns.map TextNode.qualifiedName).Nodup) {n : TextNode} (hn : n ∈ ns) :
    c.upToDate s' (c.writeKey s'.dimension) n = true := by
  obtain ⟨rows, hm, hk, ht, -⟩ := hst.rows
  have hrow : ∀ row ∈ rows, row.qualifiedName = n.qualifiedName →
      row.textHash = c.sha256 n.text := by
    intro row hr hq
    have hmem : (row.qualifiedName, row.textHash) ∈ (ns.map c.workItem).map
        (fun item => (item.qualifiedName, item.textHash)) :=
      hm ▸ List.mem_map_of_mem hr
    rw [List.map_map] at hmem
    obtain ⟨n', hn', heq⟩ := List.mem_map.mp hmem
    obtain ⟨h1, h2⟩ := Prod.mk.inj heq
    have hnn : n' = n := List.inj_on_of_nodup_map hnodup hn' hn (h1.trans hq)
    rw [← h2, hnn]
    rfl
  have hex : ∃ row ∈ rows, row.qualifiedName = n.qualifiedName := by
    have hmem : (n.qualifiedName, c.sha256 n.text) ∈ rows.map
        (fun row => (row.qualifiedName, row.textHash)) := by
      rw [hm, List.map_map]
      exact List.mem_map.mpr ⟨n, hn, rfl⟩
    obtain ⟨row, hr, heq⟩ := List.mem_map.mp hmem
    exact ⟨row, hr, (Prod.mk.inj heq).1⟩
  obtain ⟨row, hr, hq⟩ := hex
  have hlast : lastOf VectorRow.pk (n.qualifiedName, c.writeKey s'.dimension) rows ≠ none := by
    intro hnone
    refine lastOf_eq_none.mp hnone row hr ?_
    rw [VectorRow.pk, hq, hk row hr]
  obtain ⟨r, hr'⟩ := Option.ne_none_iff_exists'.mp hlast
  have hpk := key_of_lastOf hr'
  obtain ⟨id, hid⟩ := KeyTable.mem_upsertAll_of_last (t := s.table) hr'
  have hget : s'.table.get (n.qualifiedName, c.writeKey s'.dimension) = some (id, r) := by
    rw [ht]
    exact KeyTable.get_eq_some.mpr ⟨hid, hpk⟩
  unfold upToDate
  rw [hget]
  have hname : r.qualifiedName = n.qualifiedName := congrArg Prod.fst hpk
  simpa using hrow r (mem_of_lastOf hr') hname

theorem upToDate_of_not_mem {items : List EmbedWorkItem} (hst : Stores (c := c) s s' items)
    {n : TextNode} (hn : ∀ item ∈ items, item.qualifiedName ≠ n.qualifiedName) (key : String) :
    c.upToDate s' key n = c.upToDate s key n := by
  obtain ⟨rows, hm, -, ht, -⟩ := hst.rows
  have hnone : lastOf VectorRow.pk (n.qualifiedName, key) rows = none := by
    refine lastOf_eq_none.mpr fun row hr hpk => ?_
    have hmem : (row.qualifiedName, row.textHash) ∈ items.map
        (fun item => (item.qualifiedName, item.textHash)) := hm ▸ List.mem_map_of_mem hr
    obtain ⟨item, hitem, heq⟩ := List.mem_map.mp hmem
    exact hn item hitem ((Prod.mk.inj heq).1.trans (congrArg Prod.fst hpk))
  have hget : s'.table.get (n.qualifiedName, key) = s.table.get (n.qualifiedName, key) := by
    refine Option.ext fun r => ?_
    rw [KeyTable.get_eq_some, KeyTable.get_eq_some, ht]
    constructor
    · rintro ⟨hr, hpk⟩
      rcases KeyTable.mem_upsertAll hr with hlast | ⟨-, hold⟩
      · rw [hpk, hnone] at hlast
        cases hlast
      · exact ⟨hold, hpk⟩
    · rintro ⟨hr, hpk⟩
      exact ⟨KeyTable.mem_upsertAll_of_mem hr (hpk ▸ hnone), hpk⟩
  unfold upToDate
  rw [hget]

theorem keys_of_stores (hst : Stores (c := c) s s' (ns.map c.workItem)) :
    s'.keys = addKeys s.keys (ns.map fun n => (n.qualifiedName, c.writeKey s'.dimension)) := by
  obtain ⟨rows, hm, hk, ht, -⟩ := hst.rows
  have hnames : rows.map VectorRow.qualifiedName = ns.map TextNode.qualifiedName := by
    have h := congrArg (List.map Prod.fst) hm
    rw [List.map_map, List.map_map, List.map_map] at h
    exact h
  have hpks : rows.map VectorRow.pk
      = ns.map fun n => (n.qualifiedName, c.writeKey s'.dimension) := by
    have h := congrArg (List.map fun q => (q, c.writeKey s'.dimension)) hnames
    rw [List.map_map, List.map_map] at h
    refine Eq.trans (List.map_congr_left fun row hr => ?_) h
    rw [VectorRow.pk, hk row hr]
    rfl
  unfold EmbedState.keys
  rw [ht, KeyTable.keys_upsertAll, hpks]

theorem orName_lookupKey_of_pick {p : String}
    (h : c.sql.pick s.keys (c.writeKey s.dimension) = some p) :
    orName (c.lookupKey s) (c.provider.name s.dimension) = p := by
  rw [lookupKey_of_pick h, orName,
    if_neg (ne_of_nocase (c.sql.pick_some h).2 (writeKey_ne s.dimension))]

theorem needed_eq_nil : c.needed s nodes = [] ↔ ∀ n ∈ candidateNodes nodes,
    c.upToDate s (orName (c.lookupKey s) (c.provider.name s.dimension)) n = true := by
  unfold needed
  rw [List.filter_eq_nil_iff]
  simp

theorem prepareEmbedWork_eq (s : EmbedState V) (nodes : GraphNodes) :
    c.prepareEmbedWork s nodes = (c.seedProviderDimensionFromStore s,
      (c.needed (c.seedProviderDimensionFromStore s) nodes).map c.workItem) := rfl

/-- A run over nodes that need work settles the store exactly if the spelling found
for the key written is that key, and every node that was up to date has a row under it
too. -/
theorem settled_of_needed (hst : Stores (c := c) s s' ((c.needed s nodes).map c.workItem))
    (hne : c.needed s nodes ≠ []) :
    let key := orName (c.lookupKey s) (c.provider.name s.dimension)
    let new := c.writeKey s'.dimension
    (c.needed s' nodes = [] ∧ c.lookupKey s' = new) ↔
      c.sql.pick (addKeys s.keys ((c.needed s nodes).map fun n => (n.qualifiedName, new))) new
          = some new ∧
        ∀ n ∈ candidateNodes nodes, c.upToDate s key n = true → c.upToDate s new n = true := by
  intro key new
  have hnodup : ((c.needed s nodes).map TextNode.qualifiedName).Nodup :=
    nodes.names_nodup.sublist
      ((List.filter_sublist.trans List.filter_sublist).map TextNode.qualifiedName)
  have hkeys : s'.keys = addKeys s.keys
      ((c.needed s nodes).map fun n => (n.qualifiedName, new)) := keys_of_stores hst
  obtain ⟨n₀, hn₀⟩ := List.exists_mem_of_ne_nil _ hne
  obtain ⟨p, hp⟩ := exists_pick (c := c) (s := s') (q := n₀.qualifiedName) (by
    rw [hkeys, mem_addKeys]
    exact .inr (List.mem_map.mpr ⟨n₀, hn₀, rfl⟩))
  -- under the key written, a node is up to date if it was embedded or was so before
  have hnew : ∀ n ∈ candidateNodes nodes, c.upToDate s' new n = true ↔
      (c.upToDate s key n = true → c.upToDate s new n = true) := by
    intro n hn
    by_cases hup : c.upToDate s key n = true
    · have hnot : ∀ item ∈ (c.needed s nodes).map c.workItem,
          item.qualifiedName ≠ n.qualifiedName := by
        intro item hitem heq
        obtain ⟨n', hn', rfl⟩ := List.mem_map.mp hitem
        obtain ⟨hcand, hneed⟩ := List.mem_filter.mp hn'
        have hnn : n' = n := List.inj_on_of_nodup_map nodes.names_nodup
          (List.mem_of_mem_filter hcand) (List.mem_of_mem_filter hn) heq
        rw [hnn, show c.upToDate s _ n = true from hup] at hneed
        exact absurd hneed (by decide)
      rw [upToDate_of_not_mem hst hnot new]
      exact ⟨fun h _ => h, fun h => h hup⟩
    · have hmem : n ∈ c.needed s nodes :=
        List.mem_filter.mpr ⟨hn, by simpa using hup⟩
      exact iff_of_true (upToDate_of_mem hst hnodup hmem) fun h => absurd h hup
  rw [← hkeys]
  constructor
  · rintro ⟨hnil, hlook⟩
    have hpn : p = new := (lookupKey_of_pick hp).symm.trans hlook
    refine ⟨hp.trans (congrArg some hpn), fun n hn => (hnew n hn).mp ?_⟩
    have h := needed_eq_nil.mp hnil n hn
    rw [orName_lookupKey_of_pick hp, hpn] at h
    exact h
  · rintro ⟨hpick, hold⟩
    refine ⟨needed_eq_nil.mpr fun n hn => ?_, lookupKey_of_pick hpick⟩
    rw [orName_lookupKey_of_pick hpick]
    exact (hnew n hn).mpr (hold n hn)

theorem rows_of_reports {items : List EmbedWorkItem} {reports : List (PassReport V)}
    (h : Passes c s items s' reports) :
    s'.written = s.written ++ reports.flatMap PassReport.stored := by
  induction h with
  | done => exact (List.append_nil _).symm
  | pass hpass hrest ih =>
      rename_i s s₁ s₂ items late e rem reports
      obtain ⟨hst, -⟩ := embedPrepared_stores hpass
      obtain ⟨rows, -, -, -, hw⟩ := hst.rows
      rw [ih, List.flatMap_cons, ← List.append_assoc]
      congr 1
      change _ = s.written ++ s₁.written.drop s.written.length
      rw [hw, List.drop_left]

def asciiText : PyText where
  casefold s := String.ofList (s.toList.map Char.toLower)
  digit ch := if ch.isDigit then some (ch.toNat - 48) else none

/-- Whether one provider has at least as many rows as another. -/
def atLeast (keys : List (String × String)) (a b : String) : Prop :=
  keys.countP (fun e => e.2 = b) ≤ keys.countP (fun e => e.2 = a)

instance (keys : List (String × String)) : DecidableRel (atLeast keys) := fun a b =>
  inferInstanceAs (Decidable (keys.countP (fun e => e.2 = b) ≤ keys.countP (fun e => e.2 = a)))

instance (keys : List (String × String)) : Std.Total (atLeast keys) :=
  ⟨fun _ _ => Nat.le_total _ _⟩

instance (keys : List (String × String)) : IsTrans String (atLeast keys) :=
  ⟨fun _ _ _ hab hbc => Nat.le_trans hbc hab⟩

/-- The order of the primary key's index: by qualified name, then by provider, letter by
letter. -/
def indexLe (a b : String × String) : Prop := a.1 < b.1 ∨ a.1 = b.1 ∧ a.2 ≤ b.2

instance : DecidableRel indexLe := fun a b =>
  inferInstanceAs (Decidable (a.1 < b.1 ∨ a.1 = b.1 ∧ a.2 ≤ b.2))

/-- The rows as SQLite scans them: the index of the primary key has both columns of it, so a
query for the provider reads the index and not the table. -/
def indexOrder : SqlChoices where
  pick keys cand :=
    ((keys.filter fun e => nocase e.2 = nocase cand).insertionSort indexLe).head?.map Prod.snd
  pick_some {keys cand p} h := by
    obtain ⟨e, he, rfl⟩ := Option.map_eq_some_iff.mp h
    have hmem := (List.mem_insertionSort indexLe).mp (List.mem_of_mem_head? he)
    obtain ⟨hkey, hcase⟩ := List.mem_filter.mp hmem
    exact ⟨⟨e.1, hkey⟩, by simpa using hcase⟩
  pick_none {keys cand} h e he := by
    have hnone := List.head?_eq_none_iff.mp (Option.map_eq_none_iff.mp h)
    intro hcase
    have hmem : e ∈ (keys.filter fun e => nocase e.2 = nocase cand).insertionSort indexLe :=
      (List.mem_insertionSort indexLe).mpr (List.mem_filter.mpr ⟨he, by simpa using hcase⟩)
    rw [hnone] at hmem
    cases hmem
  groups keys := (keepFirst id (keys.map Prod.snd)).insertionSort (atLeast keys)
  groups_mem {keys p} := by
    rw [List.mem_insertionSort]
    constructor
    · intro h
      obtain ⟨e, he, rfl⟩ := List.mem_map.mp (mem_of_mem_keepFirst h)
      exact ⟨e.1, he⟩
    · rintro ⟨q, hq⟩
      obtain ⟨b, hb, heq⟩ : ∃ b ∈ keepFirst id (keys.map Prod.snd), id b = id p :=
        exists_mem_keepFirst (List.mem_map.mpr ⟨(q, p), hq, rfl⟩)
      rw [show p = b from heq.symm]
      exact hb
  groups_sorted keys := by
    have hsorted := List.pairwise_insertionSort (atLeast keys) (keepFirst id (keys.map Prod.snd))
    exact hsorted

/-- A provider that answers every request with vectors of two numbers. -/
def pairProvider (name : Option Nat → String) (hname : ∀ d, name d ≠ "") :
    EmbeddingProvider Nat where
  name := name
  name_ne := hname
  preferredBatchSize := 100
  batch_pos := by decide
  embed _ texts := .ok (texts.map fun _ => 2)

/-- A store over that provider; a text is its own hash, a vector its own length. -/
def pairConfig (name : Option Nat → String) (hname : ∀ d, name d ≠ "") : EmbedConfig Nat where
  py := asciiText
  sql := indexOrder
  provider := pairProvider name hname
  textMode := "code"
  providerKeyOverride := none
  sha256 := id
  len := id

theorem passes_single (c : EmbedConfig V) (late : Nat → Bool) (s : EmbedState V)
    (items : List EmbedWorkItem)
    (h : (c.embedPrepared late s items).2 = some (items.length, 0)) :
    Passes c s items (c.embedPrepared late s items).1
      [⟨items, (c.embedPrepared late s items).1.written.drop s.written.length,
        items.length, 0⟩] := by
  refine .pass (show c.embedPrepared late s items = (_, _) from Prod.ext rfl h) ?_
  rw [List.drop_length]
  exact .done

/-- One function, changed since it was embedded. -/
def oneNode : GraphNodes where
  nodes := [⟨"Function", "a.py::f", "new"⟩]
  names_nodup := List.nodup_singleton _

/-- A row written when the model was spelled with a capital. -/
def respelled : EmbedState Nat where
  table := ⟨[(1, ⟨"a.py::f", 2, "old", "google:Gemini#text=code"⟩)], 1, List.nodup_singleton _⟩
  dimension := some 2

def lowerConfig : EmbedConfig Nat := pairConfig (fun _ => "google:gemini") fun _ => by decide

/-- A provider whose name carries its dimension once it knows it. -/
def suffixConfig : EmbedConfig Nat :=
  pairConfig (fun d => if d = some 2 then "openai:m@h#dim=2" else "openai:m@h")
    fun d => by split <;> decide

def noVectors : EmbedState Nat where
  table := .empty
  dimension := none

end EmbedConfig

end Dagayn
