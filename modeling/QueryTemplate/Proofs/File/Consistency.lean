import QueryTemplate.Proofs.File.Division
import QueryTemplate.Proofs.Method.Consistency

/-! # What a compiled file looks like

The blocks of a file stand behind one another, from its first header line to its end, and the
methods are compiled in their order. So the methods of a compiled file are consistent, lie one
behind the other, and no two of them have the same name.
-/

namespace QueryTemplate

/-! ## Places -/

/-- Whether spans follow one another from `start` to `stop` without a gap, none of them empty. -/
def Span.Adjoin (start stop : Nat) : List Span → Prop
  | [] => start = stop
  | s :: rest => s.start = start ∧ start < s.stop ∧ Adjoin s.stop stop rest

namespace Span.Adjoin

variable {start stop : Nat} {spans : List Span}

theorem le (h : Adjoin start stop spans) : start ≤ stop := by
  induction spans generalizing start with
  | nil => exact Nat.le_of_eq h
  | cons s spans ih => exact Nat.le_trans (Nat.le_of_lt h.2.1) (ih h.2.2)

theorem within (h : Adjoin start stop spans) :
    ∀ s ∈ spans, start ≤ s.start ∧ s.start < s.stop ∧ s.stop ≤ stop := by
  induction spans generalizing start with
  | nil => exact fun _ hs => absurd hs List.not_mem_nil
  | cons s spans ih =>
    obtain ⟨hstart, hlt, hrest⟩ := h
    refine List.forall_mem_cons.2 ⟨⟨Nat.le_of_eq hstart.symm, hstart ▸ hlt, hrest.le⟩, ?_⟩
    intro t ht
    obtain ⟨hle, hbounds⟩ := ih hrest t ht
    exact ⟨Nat.le_trans (Nat.le_of_lt hlt) hle, hbounds⟩

theorem pairwise (h : Adjoin start stop spans) :
    spans.Pairwise fun s t => s.stop ≤ t.start := by
  induction spans generalizing start with
  | nil => exact .nil
  | cons s spans ih =>
    obtain ⟨-, -, hrest⟩ := h
    exact .cons (fun t ht => (hrest.within t ht).1) (ih hrest)

end Span.Adjoin

namespace MethodSource

def Block.span (b : Block) : Span :=
  ⟨b.header.offset, b.header.stop + Text.size (b.body.flatMap Fragment.text)⟩

theorem size_pos_of_headerRest? {line rest : Text} (h : headerRest? line = some rest) :
    0 < Text.size line := by
  cases line with
  | nil => cases h
  | cons c line => exact Nat.lt_of_lt_of_le c.utf8Size_pos (Nat.le_add_right ..)

/-- The blocks of a text stand behind one another, behind the lines in front of them. -/
theorem group_adjoin (o : Nat) (lines : List Text) :
    Span.Adjoin (o + Text.size ((group (locate o lines)).1.flatMap Fragment.text))
      (o + Text.size lines.flatten) ((group (locate o lines)).2.map Block.span) := by
  induction lines generalizing o with
  | nil => exact rfl
  | cons line lines ih =>
    have hrest := ih (o + Text.size line)
    rw [List.flatten_cons, Text.size_append, ← Nat.add_assoc, locate, group_cons]
    cases hheader : headerRest? line with
    | none =>
      rw [List.flatMap_cons, Text.size_append, ← Nat.add_assoc]
      exact hrest
    | some rest =>
      have hpos := size_pos_of_headerRest? hheader
      refine ⟨rfl, ?_, hrest⟩
      simp only [List.flatMap_nil, Text.size_nil, Block.span, Fragment.stop]
      omega

theorem size_trimEnd_le (t : Text) : Text.size (Text.trimEnd t) ≤ Text.size t := by
  obtain ⟨space, ht, -⟩ := Text.trimEnd_append t
  have hsize := congrArg Text.size ht
  rw [Text.size_append] at hsize
  omega

theorem span_of_ofBlock {b : Block} {source : MethodSource} (h : ofBlock b = .ok source) :
    source.span = b.span := by
  have hblank : Text.size (blankComments .code (b.body.flatMap Fragment.text)) =
      Text.size (b.body.flatMap Fragment.text) := size_blankComments _ _
  have htrim := size_trimEnd_le b.header.text
  unfold ofBlock ofHeader at h
  dsimp only at h
  split at h
  · cases h
  · split at h
    · cases h
    · cases h
      simp only [span, Span.merge, Block.span, Fragment.span, Fragment.stop, hblank,
        Span.mk.injEq]
      omega

/-- The methods of a file stand behind one another, from the first header line to the end. -/
theorem split_adjoin {t : Text} {sources : List MethodSource} (h : split t = .ok sources) :
    ∃ lead, Span.Adjoin lead (Text.size t) (sources.map span) := by
  have hblocks := group_adjoin 0 (Text.lines t)
  rw [Text.flatten_lines, Nat.zero_add, Nat.zero_add] at hblocks
  rw [split_eq] at h
  obtain ⟨-, -, h⟩ := Checked.bind_eq_ok h
  have hspans : (group (locate 0 (Text.lines t))).2.map Block.span = sources.map span := by
    rw [← List.forall₂_eq_eq_eq, List.forall₂_map_left_iff, List.forall₂_map_right_iff]
    exact (mapM_eq_ok_iff.1 h).imp fun _ _ hb => (span_of_ofBlock hb).symm
  exact ⟨_, hspans ▸ hblocks⟩

end MethodSource

/-! ## Methods -/

/-- A compiled method has the name and the place of its source and is consistent. -/
structure Method.Compiles (source : MethodSource) (m : Method) : Prop where
  name : m.name = source.name
  span : m.span = source.span
  isConsistent : m.IsConsistent source.options

namespace Compiler

/-- A run over methods compiles each of them. Their names are new and distinct, since every one is
taken before the next method is compiled. -/
theorem compiles_of_compileAll {compiler : Compiler} {sources : List MethodSource}
    {ms : List Method} {s s' : Session}
    (h : (sources.mapM compiler.compileMethod : Compile _) s = (.ok ms, s')) :
    List.Forall₂ Method.Compiles sources ms ∧ (ms.map fun m => m.name.qualified).Nodup ∧
      ∀ m ∈ ms, ∀ entry ∈ s.names, entry.1 ≠ m.name.qualified := by
  induction sources generalizing s ms with
  | nil =>
    cases h
    exact ⟨.nil, List.nodup_nil, by simp⟩
  | cons source sources ih =>
    rw [List.mapM_cons] at h
    obtain ⟨m, t, hm, h⟩ := exists_of_bind_run h
    obtain ⟨later, t', hlater, h⟩ := exists_of_bind_run h
    cases h
    have hconsistent := isConsistent_of_compileMethod hm
    obtain ⟨hfree, hnames, _, _, _, _, _, _, _, _, _, -, -, -, -, -, rfl⟩ :=
      exists_of_compileMethod hm
    obtain ⟨hcompiles, hnodup, hnew⟩ := ih hlater
    rw [hnames] at hnew
    refine ⟨.cons ⟨rfl, rfl, hconsistent⟩ hcompiles, List.nodup_cons.2 ⟨fun hmem => ?_, hnodup⟩,
      List.forall_mem_cons.2 ⟨?_, fun m hm entry hentry => ?_⟩⟩
    · obtain ⟨m, hm, heq⟩ := List.mem_map.1 hmem
      exact hnew m hm _ (List.mem_cons_self ..) heq.symm
    · intro entry hentry heq
      exact List.find?_eq_none.1 hfree entry hentry (beq_iff_eq.2 heq)
    · exact hnew m hm entry (List.mem_cons_of_mem _ hentry)

/-- **Every compiled file is consistent.** Its methods are those of the file in their order, each
consistent with itself and its header; their names are distinct, and they lie behind one another
from the first header line to the end of the file. -/
theorem compileFile_isConsistent (compiler : Compiler) (path : Path) (text : Text) (s : Session)
    {file : CompiledFile} (h : (compiler.compileFile path text s).1 = .ok file) :
    (∃ sources, MethodSource.split text = .ok sources ∧
      List.Forall₂ Method.Compiles sources file.methods) ∧
    (file.methods.map fun m => m.name.qualified).Nodup ∧
    (file.methods.map Method.span).Pairwise (fun a b => a.stop ≤ b.start) ∧
    ∃ lead, Span.Adjoin lead (Text.size text) (file.methods.map Method.span) := by
  rw [compileFile_run, compileText_run] at h
  cases hsplit : MethodSource.split text with
  | error _ =>
    rw [hsplit] at h
    cases h
  | ok sources =>
    rw [hsplit] at h
    dsimp only at h
    rcases hrun : (sources.mapM compiler.compileMethod : Compile _) { s with names := [] }
      with ⟨_ | ms, t⟩
    · rw [hrun] at h
      cases h
    · rw [hrun] at h
      cases h
      obtain ⟨hcompiles, hnodup, -⟩ := compiles_of_compileAll hrun
      have hspans : sources.map MethodSource.span = ms.map Method.span := by
        rw [← List.forall₂_eq_eq_eq, List.forall₂_map_left_iff, List.forall₂_map_right_iff]
        exact hcompiles.imp fun _ _ hm => hm.span.symm
      obtain ⟨lead, hadjoin⟩ := MethodSource.split_adjoin hsplit
      rw [hspans] at hadjoin
      exact ⟨⟨sources, rfl, hcompiles⟩, hnodup, hadjoin.pairwise, lead, hadjoin⟩

/-- A deletion in front of a dynamic query, whose record is derived from the schema. -/
theorem compileFile_isConsistent_dynamic_record :
    let text : Text := "--name: a exec=affect\nDELETE FROM t\n".toList ++
      "--name: q.b returns=[User] auto dynamic\n".toList ++
      "SELECT x, COUNT(*) c FROM u %\x7bif p\x7d WHERE x = $\x7bp\x7d %\x7bendif\x7d".toList
    let compiler : Compiler :=
      ⟨.standard, some (Schema.ofList
        [⟨['u'], [], [⟨['x'], [], "INT".toList, true, false⟩]⟩]).provider⟩
    let m : Method := ⟨⟨none, ['a']⟩, true, .mutation .affect,
      .static ⟨"DELETE FROM t".toList, [], []⟩, [], [], some "affect".toList,
      some ⟨.int64, false⟩, none, ⟨0, 36⟩⟩
    let n : Method := ⟨⟨some ['q'], ['b']⟩, false, .multiRow,
      .dynamic [.constant ⟨"SELECT x, COUNT(*) c FROM u".toList, [], []⟩,
        .conditional ['p'] ⟨"WHERE x = ?".toList, [['p']], []⟩],
      [⟨some ['u'], ['x'], none, false, false, ⟨83, 84⟩⟩,
        ⟨some ['u'], "count".toList, some ['c'], true, false, ⟨86, 94⟩⟩],
      [⟨['u'], none, false, ⟨102, 103⟩⟩], none, some ⟨.named "User".toList, true⟩,
      some ⟨"User".toList, [⟨['x'], "INT".toList, [], "u.x".toList⟩,
        ⟨['c'], "BIGINT".toList, [], "count".toList⟩]⟩, ⟨36, 135⟩⟩
    (compiler.compileFile ⟨[]⟩ text .empty).1 = .ok ⟨⟨[]⟩, [m, n]⟩ ∧
      (∃ sources, MethodSource.split text = .ok sources ∧
        List.Forall₂ Method.Compiles sources [m, n]) ∧
      ([m, n].map fun m => m.name.qualified).Nodup ∧
      ([m, n].map Method.span).Pairwise (fun a b => a.stop ≤ b.start) ∧
      ∃ lead, Span.Adjoin lead (Text.size text) ([m, n].map Method.span) := by
  intro text compiler m n
  have h : (compiler.compileFile ⟨[]⟩ text .empty).1 = .ok ⟨⟨[]⟩, [m, n]⟩ := by decide +kernel
  exact ⟨h, compileFile_isConsistent compiler ⟨[]⟩ text .empty h⟩

end Compiler

end QueryTemplate
