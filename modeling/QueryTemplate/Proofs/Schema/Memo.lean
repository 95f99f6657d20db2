import Mathlib.Data.Finset.Card
import QueryTemplate.Proofs.Session.History

/-! # The cache as a memo

Caches are held by handles. The clones of a handle refer to the same cell, so what one of them has
had described is known to all, and what one of them drops is lost to all. Whatever the provider
does meanwhile, a description that was given and has not been dropped is given again; any other
answer is the provider's, asked for once.
-/

namespace QueryTemplate

/-! ## Lookups -/

namespace SchemaCache

variable {provider : Provider} {name other : Text} {table : SchemaTable} {cache : SchemaCache}

def Distinct (cache : SchemaCache) : Prop := (cache.entries.map Prod.fst).Nodup

theorem mem_names_iff :
    name ∈ cache.entries.map Prod.fst ↔ ∃ table, cache.find? name = some table := by
  rw [← Option.isSome_iff_exists, find?, Option.isSome_map, List.find?_isSome, List.mem_map]
  simp

theorem find?_describe :
    (describe provider name cache).2.find? other = some table ↔
      cache.find? other = some table ∨
        (other = name ∧ (describe provider name cache).1 = .ok table) := by
  rcases describe_cases provider name cache with
    ⟨found, hfind, hrun⟩ | ⟨found, hfind, _, hrun⟩ | ⟨cause, _, _, hrun⟩
  · rw [hrun]
    constructor
    · exact .inl
    · rintro (h | ⟨rfl, h⟩)
      · exact h
      · rw [hfind, Except.ok.inj h]
  · rw [hrun, find?_cons _ _ _ _ cache.asked]
    by_cases h : name = other
    · subst h
      simp [hfind]
    · simp [h, Ne.symm h, find?]
  · rw [hrun]
    simp [find?]

theorem describe_of_some (h : cache.find? name = some table) :
    describe provider name cache = (.ok table, cache) := by
  simp [describe, h]

theorem describe_of_none (h : cache.find? name = none) :
    (describe provider name cache).1 = provider name ∧
      (describe provider name cache).2.asked = cache.asked ++ [name] := by
  simp only [describe, h]
  cases provider name <;> exact ⟨rfl, rfl⟩

theorem entries_of_error {cause : SchemaCause}
    (h : (describe provider name cache).1 = .error cause) :
    (describe provider name cache).2.entries = cache.entries := by
  rcases describe_cases provider name cache with
    ⟨_, _, hrun⟩ | ⟨_, _, _, hrun⟩ | ⟨_, _, _, hrun⟩
  · rw [hrun]
  · rw [hrun] at h
    cases h
  · rw [hrun]

theorem Distinct.describe (h : cache.Distinct) : (describe provider name cache).2.Distinct := by
  rcases describe_cases provider name cache with
    ⟨_, _, hrun⟩ | ⟨_, hfind, _, hrun⟩ | ⟨_, _, _, hrun⟩
  · rw [hrun]
    exact h
  · rw [hrun]
    apply List.nodup_cons.2
    refine ⟨?_, h⟩
    rw [mem_names_iff, hfind]
    simp
  · rw [hrun]
    exact h

theorem Distinct.invalidate (h : cache.Distinct) : (cache.invalidate name).Distinct :=
  h.sublist (List.filter_sublist.map _)

/-- The size of a cache that keeps no name twice is the number of names it can look up. -/
theorem Distinct.exists_card (h : cache.Distinct) :
    ∃ names : Finset Text, (∀ name, name ∈ names ↔ ∃ table, cache.find? name = some table) ∧
      cache.size = names.card := by
  refine ⟨(cache.entries.map Prod.fst).toFinset, ?_, ?_⟩
  · intro name
    rw [List.mem_toFinset, mem_names_iff]
  · rw [List.toFinset_card_of_nodup h, List.length_map, size]

end SchemaCache

/-! ## Handles and steps -/

/-- A cache as it is held: newly made in a cell of its own, or cloned from another handle. -/
inductive CacheHandle where
  | new (cell : Nat)
  | clone (original : CacheHandle)
deriving DecidableEq, Repr

def CacheHandle.cell : CacheHandle → Nat
  | new cell => cell
  | clone original => original.cell

/-- A step on a cache, through any of its handles, or a change of what the provider answers. -/
inductive CacheStep where
  | describe (handle : CacheHandle) (name : Text)
  | invalidate (handle : CacheHandle) (name : Text)
  | clear (handle : CacheHandle)
  | change (provider : Provider)

def CacheStep.Drops (cell : Nat) (name : Text) : CacheStep → Prop
  | invalidate handle other => handle.cell = cell ∧ other = name
  | clear handle => handle.cell = cell
  | _ => False

/-- The cells of all caches, and the provider behind them as it is now. -/
structure CacheCells where
  provider : Provider
  cells : Nat → SchemaCache

namespace CacheCells

def start (provider : Provider) : CacheCells := ⟨provider, fun _ => .empty⟩

def cache (w : CacheCells) (handle : CacheHandle) : SchemaCache := w.cells handle.cell

def asked (w : CacheCells) (cell : Nat) : List Text := (w.cells cell).asked

/-- The cells with another cache in place of the one that a handle refers to. -/
def put (w : CacheCells) (handle : CacheHandle) (cache : SchemaCache) : CacheCells :=
  { w with cells := Function.update w.cells handle.cell cache }

def answer (w : CacheCells) (handle : CacheHandle) (name : Text) :
    Except SchemaCause SchemaTable :=
  (SchemaCache.describe w.provider name (w.cache handle)).1

def step (w : CacheCells) : CacheStep → CacheCells
  | .describe handle name =>
    w.put handle (SchemaCache.describe w.provider name (w.cache handle)).2
  | .invalidate handle name => w.put handle ((w.cache handle).invalidate name)
  | .clear handle => w.put handle (w.cache handle).clear
  | .change provider => { w with provider := provider }

def run (steps : List CacheStep) (w : CacheCells) : CacheCells := steps.foldl step w

theorem run_concat (steps : List CacheStep) (s : CacheStep) (w : CacheCells) :
    run (steps ++ [s]) w = (run steps w).step s := by
  simp [run]

/-- Whether a table was described in a cell, and has not been dropped since. -/
def Remembers (provider : Provider) (cell : Nat) (past : List CacheStep) (name : Text)
    (table : SchemaTable) : Prop :=
  ∃ earlier handle later, past = earlier ++ .describe handle name :: later ∧ handle.cell = cell ∧
    (run earlier (start provider)).answer handle name = .ok table ∧
    ∀ s ∈ later, ¬s.Drops cell name

variable {provider : Provider} {cell : Nat} {past : List CacheStep} {name : Text}
  {table : SchemaTable}

/-- A further step either keeps what is remembered or is what brings the table in. -/
theorem remembers_concat {s : CacheStep} :
    Remembers provider cell (past ++ [s]) name table ↔
      (Remembers provider cell past name table ∧ ¬s.Drops cell name) ∨
      ∃ handle, s = .describe handle name ∧ handle.cell = cell ∧
        (run past (start provider)).answer handle name = .ok table := by
  constructor
  · rintro ⟨earlier, handle, later, hpast, hcell, hanswer, hkept⟩
    rcases List.eq_nil_or_concat later with rfl | ⟨later, last, rfl⟩
    · obtain ⟨rfl, hs⟩ := List.append_inj' hpast rfl
      exact .inr ⟨handle, List.singleton_inj.1 hs, hcell, hanswer⟩
    · rw [List.concat_eq_append, ← List.cons_append, ← List.append_assoc] at hpast
      obtain ⟨rfl, hs⟩ := List.append_inj' hpast rfl
      obtain rfl := List.singleton_inj.1 hs
      refine .inl ⟨⟨earlier, handle, later, rfl, hcell, hanswer, ?_⟩, ?_⟩
      · intro t ht
        apply hkept
        simp [ht]
      · apply hkept
        simp
  · rintro (⟨⟨earlier, handle, later, rfl, hcell, hanswer, hkept⟩, hs⟩ | ⟨handle, rfl, hcell, h⟩)
    · refine ⟨earlier, handle, later ++ [s], by simp, hcell, hanswer, ?_⟩
      intro t ht
      rcases List.mem_append.1 ht with ht | ht
      · exact hkept t ht
      · rw [List.mem_singleton.1 ht]
        exact hs
    · exact ⟨past, handle, [], rfl, hcell, h, by simp⟩

/-! ## One step -/

theorem cells_put (w : CacheCells) (handle : CacheHandle) (cache : SchemaCache) (cell : Nat) :
    (w.put handle cache).cells cell = if cell = handle.cell then cache else w.cells cell := by
  exact Function.update_apply ..

theorem asked_put (w : CacheCells) (handle : CacheHandle) (cache : SchemaCache) :
    (w.put handle cache).asked = Function.update w.asked handle.cell cache.asked := by
  funext cell
  rw [asked, cells_put, Function.update_apply]
  split_ifs <;> rfl

/-- A step keeps a description unless it drops it, and brings in what it is answered. -/
theorem find?_step {w : CacheCells} {s : CacheStep} :
    ((w.step s).cells cell).find? name = some table ↔
      ((w.cells cell).find? name = some table ∧ ¬s.Drops cell name) ∨
      ∃ handle, s = .describe handle name ∧ handle.cell = cell ∧
        w.answer handle name = .ok table := by
  cases s with
  | describe handle other =>
    rw [step, cells_put]
    by_cases h : cell = handle.cell
    · subst h
      rw [if_pos rfl, SchemaCache.find?_describe]
      constructor
      · rintro (hfind | ⟨rfl, hanswer⟩)
        · exact .inl ⟨hfind, id⟩
        · exact .inr ⟨handle, rfl, rfl, hanswer⟩
      · rintro (⟨hfind, -⟩ | ⟨_, heq, -, hanswer⟩)
        · exact .inl hfind
        · cases heq
          exact .inr ⟨rfl, hanswer⟩
    · rw [if_neg h]
      constructor
      · exact fun hfind => .inl ⟨hfind, id⟩
      · rintro (⟨hfind, -⟩ | ⟨_, heq, hcell, -⟩)
        · exact hfind
        · cases heq
          exact absurd hcell.symm h
  | invalidate handle other =>
    rw [step, cells_put]
    by_cases h : cell = handle.cell
    · subst h
      rw [if_pos rfl, SchemaCache.find?_invalidate]
      by_cases hname : name = other
      · simp [CacheStep.Drops, hname]
      · simp [CacheStep.Drops, hname, Ne.symm hname, cache]
    · simp [CacheStep.Drops, h, Ne.symm h]
  | clear handle =>
    rw [step, cells_put]
    by_cases h : cell = handle.cell
    · subst h
      simp [CacheStep.Drops, SchemaCache.clear, SchemaCache.find?]
    · simp [CacheStep.Drops, h, Ne.symm h]
  | change provider => simp [step, CacheStep.Drops]

theorem distinct_put {w : CacheCells} (h : ∀ cell, (w.cells cell).Distinct) (handle : CacheHandle)
    {cache : SchemaCache} (hcache : cache.Distinct) (cell : Nat) :
    ((w.put handle cache).cells cell).Distinct := by
  rw [cells_put]
  by_cases hcell : cell = handle.cell
  · rwa [if_pos hcell]
  · rw [if_neg hcell]
    exact h cell

theorem distinct_step {w : CacheCells} (h : ∀ cell, (w.cells cell).Distinct) (s : CacheStep) :
    ∀ cell, ((w.step s).cells cell).Distinct := by
  cases s with
  | describe handle _ => exact distinct_put h handle (h handle.cell).describe
  | invalidate handle _ => exact distinct_put h handle (h handle.cell).invalidate
  | clear handle => exact distinct_put h handle List.nodup_nil
  | change _ => exact h

/-! ## Histories -/

/-- A cell keeps exactly what is remembered of its history. -/
theorem find?_run :
    ((run past (start provider)).cells cell).find? name = some table ↔
      Remembers provider cell past name table := by
  induction past using List.reverseRecOn with
  | nil => simp [run, start, Remembers, SchemaCache.find?, SchemaCache.empty]
  | append_singleton past s ih => rw [run_concat, find?_step, ih, remembers_concat]

theorem distinct_run (provider : Provider) (past : List CacheStep) :
    ∀ cell, ((run past (start provider)).cells cell).Distinct := by
  induction past using List.reverseRecOn with
  | nil => exact fun _ => List.nodup_nil
  | append_singleton past s ih =>
    rw [run_concat]
    exact distinct_step ih s

/-- **A cache is an exact memo of what it has had described.** After any history of its handles and
its provider, describing a table gives the remembered description and asks for nothing, or, if
there is none, the provider's answer of the moment, asked for once. A failure leaves what is kept as
it is. The size is the number of names that are remembered. -/
theorem describe_run (provider : Provider) (past : List CacheStep) (handle : CacheHandle)
    (name : Text) :
    let w := run past (start provider)
    let w' := w.step (.describe handle name)
    (∀ table, Remembers provider handle.cell past name table →
      w.answer handle name = .ok table ∧ w'.asked = w.asked) ∧
    ((∀ table, ¬Remembers provider handle.cell past name table) →
      w.answer handle name = w.provider name ∧
        w'.asked = Function.update w.asked handle.cell (w.asked handle.cell ++ [name])) ∧
    (∀ cause, w.answer handle name = .error cause →
      ∀ cell, (w'.cells cell).entries = (w.cells cell).entries) ∧
    ∃ names : Finset Text,
      (∀ other, other ∈ names ↔ ∃ table, Remembers provider handle.cell past other table) ∧
      (w.cache handle).size = names.card := by
  intro w w'
  have hw' : w' = w.put handle (SchemaCache.describe w.provider name (w.cache handle)).2 := rfl
  refine ⟨?_, ?_, ?_, ?_⟩
  · intro table htable
    have hrun : SchemaCache.describe w.provider name (w.cache handle) =
        (.ok table, w.cache handle) := SchemaCache.describe_of_some (find?_run.2 htable)
    rw [hw', answer, asked_put, hrun]
    exact ⟨rfl, Function.update_eq_self ..⟩
  · intro hnone
    have hfind : (w.cache handle).find? name = none := by
      apply Option.eq_none_iff_forall_ne_some.2
      exact fun table htable => hnone table (find?_run.1 htable)
    obtain ⟨hanswer, hasked⟩ := @SchemaCache.describe_of_none w.provider _ _ hfind
    rw [hw', asked_put, hasked]
    exact ⟨hanswer, rfl⟩
  · intro cause hcause cell
    rw [hw', cells_put]
    by_cases hcell : cell = handle.cell
    · rw [if_pos hcell, SchemaCache.entries_of_error hcause, cache, hcell]
    · rw [if_neg hcell]
  · obtain ⟨names, hnames, hsize⟩ := (distinct_run provider past handle.cell).exists_card
    refine ⟨names, ?_, hsize⟩
    intro other
    rw [hnames]
    exact exists_congr fun table => find?_run

/-- A table is described through a clone, replaced behind the cache, and described again; a name
that failed is asked for again. -/
theorem describe_run_replaced :
    let old : SchemaTable := ⟨['t'], [], [⟨['x'], [], "INT".toList, true, false⟩]⟩
    let new : SchemaTable := ⟨['t'], [], [⟨['y'], [], "TEXT".toList, false, false⟩]⟩
    let schema : Schema := .ofList [old]
    let first : CacheHandle := .new 0
    let past : List CacheStep := [.describe first.clone ['t'], .describe first ['u'],
      .change (schema.insert new).provider]
    let w := run past (start schema.provider)
    Remembers schema.provider 0 past ['t'] old ∧ w.provider ['t'] = .ok new ∧
      w.answer first ['t'] = .ok old ∧ w.asked 0 = [['t'], ['u']] ∧
      (w.step (.describe first ['u'])).asked 0 = [['t'], ['u'], ['u']] ∧
      (w.cache first).size = 1 := by
  intro old new schema first past w
  have htable : Remembers schema.provider 0 past ['t'] old :=
    ⟨[], first.clone, [.describe first ['u'], .change (schema.insert new).provider], rfl, rfl, rfl,
      by simp [CacheStep.Drops]⟩
  have hrun := describe_run schema.provider past first ['t']
  exact ⟨htable, rfl, (hrun.1 old htable).1, rfl, rfl, rfl⟩

end CacheCells

end QueryTemplate
