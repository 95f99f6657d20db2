import QueryTemplate.Proofs.File.Division
import QueryTemplate.Proofs.Session.Faithful
import QueryTemplate.Proofs.Text.Slice

/-! # Compiling a file in two halves

A file that is cut in front of a header line compiles to the methods of its first half and the
moved methods of its second half; if a half is refused, so is the file, for the same reason at the
same place of that half.
-/

namespace QueryTemplate

/-! ## Moved methods and faults -/

def QueryField.shift (base : Nat) (f : QueryField) : QueryField :=
  { f with span := f.span.shift base }

def QueryTable.shift (base : Nat) (t : QueryTable) : QueryTable :=
  { t with span := t.span.shift base }

def Method.shift (base : Nat) (m : Method) : Method :=
  { m with
    fields := m.fields.map (QueryField.shift base)
    tables := m.tables.map (QueryTable.shift base)
    span := m.span.shift base }

def MethodCause.shift (base : Nat) : MethodCause → MethodCause
  | .duplicateMethod method first => .duplicateMethod method (first.shift base)
  | cause => cause

def MethodFault.shift (base : Nat) (fault : MethodFault) : MethodFault :=
  ⟨fault.value.shift base, fault.span.shift base⟩

/-- The fault in a file in which the lines of `before` come first. -/
def FileFault.behind (before : Text) (f : FileFault) : FileFault where
  location := f.location
  position := ⟨f.position.line + before.count '\n', f.position.column⟩
  offset := f.offset + Text.size before
  fault := MethodFault.shift (Text.size before) f.fault

section

variable {base : Nat}

theorem QueryField.eq_shift {f f' : QueryField} (h : Aligned (.shift base) f f') :
    f' = f.shift base := by
  cases f'
  rw [QueryField.shift, ← Span.eq_shift h.span, h.table, h.name, h.aliasName, h.isAggregate,
    h.isVerbatim]

theorem QueryTable.eq_shift {t t' : QueryTable} (h : Aligned (.shift base) t t') :
    t' = t.shift base := by
  cases t'
  rw [QueryTable.shift, ← Span.eq_shift h.span, h.name, h.aliasName, h.isVerbatim]

theorem Method.eq_shift {m m' : Method} (h : Aligned (.shift base) m m') : m' = m.shift base := by
  cases m'
  have hfields := eq_map_of_aligned (fun _ _ => QueryField.eq_shift) h.fields
  have htables := eq_map_of_aligned (fun _ _ => QueryTable.eq_shift) h.tables
  rw [Method.shift, ← Span.eq_shift h.span, ← hfields, ← htables, h.name, h.isMutation, h.kind,
    h.body, h.execTag, h.returns, h.resultRecord]

theorem MethodFault.eq_shift {fault fault' : MethodFault} (h : Aligned (.shift base) fault fault') :
    fault' = MethodFault.shift base fault := by
  obtain ⟨cause, span⟩ := fault
  obtain ⟨cause', span'⟩ := fault'
  have hcause : MethodCause.Alike (.shift base) cause cause' := h.value
  have hspan : span' = span.shift base := Span.eq_shift h.span
  have hvalue : cause' = cause.shift base := by
    cases cause with
    | duplicateMethod method first =>
      cases cause' with
      | duplicateMethod method' first' =>
        obtain ⟨rfl, hfirst⟩ := hcause
        rw [MethodCause.shift, Span.eq_shift hfirst]
      | _ => cases hcause
    | _ => exact hcause.symm
  rw [hvalue, hspan]
  rfl

end

/-! ## Positions -/

namespace Position

theorem foldl_step_line (t : Text) (p : Position) (n : Nat) :
    t.foldl step ⟨p.line + n, p.column⟩ =
      ⟨(t.foldl step p).line + n, (t.foldl step p).column⟩ := by
  induction t generalizing p with
  | nil => rfl
  | cons c rest ih =>
    rw [List.foldl_cons, List.foldl_cons, ← ih]
    by_cases hc : c = '\n'
    · simp only [step, if_pos hc, Nat.add_right_comm]
    · simp only [step, if_neg hc]

theorem foldl_step_of_endsLine {t : Text} (h : Text.EndsLine t) (line : Nat) {column : Nat}
    (hcolumn : t = [] → column = 1) :
    t.foldl step ⟨line, column⟩ = ⟨line + t.count '\n', 1⟩ := by
  induction t generalizing line column with
  | nil => rw [hcolumn rfl, List.foldl_nil, List.count_nil, Nat.add_zero]
  | cons c rest ih =>
    obtain ⟨hrest, hlast⟩ := h.tail
    rw [List.foldl_cons, step]
    by_cases hc : c = '\n'
    · rw [if_pos hc, ih hrest _ fun _ => rfl, hc, List.count_cons_self, Nat.add_right_comm,
        Nat.add_assoc]
    · rw [if_neg hc, ih hrest _ fun hnil => absurd (hlast hnil) hc, List.count_cons_of_ne hc]

theorem behind_append {a : Text} (ha : Text.EndsLine a) (t : Text) :
    behind (a ++ t) = ⟨(behind t).line + a.count '\n', (behind t).column⟩ := by
  rw [behind, List.foldl_append, foldl_step_of_endsLine ha _ fun _ => rfl]
  exact foldl_step_line t ⟨1, 1⟩ _

end Position

namespace FileFault

theorem locate_append_left (path : Path) {a : Text} {fault : MethodFault}
    (h : fault.span.start ≤ Text.size a) (b : Text) :
    locate path (a ++ b) fault = locate path a fault := by
  have hmin : min fault.span.start (Text.size (a ++ b)) = fault.span.start := by
    rw [Text.size_append]
    omega
  simp only [locate, hmin, Nat.min_eq_left h, Position.ofOffset, Text.takeBytes_append_of_le h]

theorem locate_append_right (path : Path) {a : Text} (ha : Text.EndsLine a) (b : Text)
    (fault : MethodFault) :
    locate path (a ++ b) (MethodFault.shift (Text.size a) fault) =
      (locate path b fault).behind a := by
  have hmin : min (fault.span.start + Text.size a) (Text.size (a ++ b)) =
      min fault.span.start (Text.size b) + Text.size a := by
    rw [Text.size_append]
    omega
  simp only [locate, behind, MethodFault.shift, Span.shift, hmin, Position.ofOffset,
    Text.takeBytes_append_size, Position.behind_append ha]

end FileFault

/-! ## Compiled halves -/

namespace Compiler

/-- What compiling a file gives if nothing has been compiled before. -/
def compiled (compiler : Compiler) (path : Path) (text : Text) : Except FileFault CompiledFile :=
  (compiler.compileFile path text .empty).1

variable {compiler : Compiler}

theorem compileFile_of_split {text : Text} {sources : List MethodSource}
    (h : MethodSource.split text = .ok sources) (path : Path) (s : Session) :
    (compiler.compileFile path text s).1 =
      match ((sources.mapM compiler.compileMethod : Compile _) { s with names := [] }).1 with
      | .ok methods => .ok ⟨path, methods⟩
      | .error fault => .error (.locate path text fault) := by
  have hrun : compiler.compileText text s =
      (sources.mapM compiler.compileMethod : Compile _) { s with names := [] } := by
    rw [compileText_run, h]
  have hfile := congrArg Prod.fst (compiler.compileFile_run path text s)
  rw [hrun] at hfile
  exact hfile

theorem compiled_eq {text : Text} {sources : List MethodSource}
    (h : MethodSource.split text = .ok sources) (path : Path) :
    compiler.compiled path text =
      match ((sources.mapM compiler.compileMethod : Compile _) .empty).1 with
      | .ok methods => .ok ⟨path, methods⟩
      | .error fault => .error (.locate path text fault) :=
  compileFile_of_split h path .empty

theorem compileAll_append (first second : List MethodSource) (s : Session) :
    (((first ++ second).mapM compiler.compileMethod : Compile _) s).1 =
      match (first.mapM compiler.compileMethod : Compile _) s with
      | (.error fault, _) => .error fault
      | (.ok ms, t) => ((second.mapM compiler.compileMethod : Compile _) t).1.map (ms ++ ·) := by
  rw [List.mapM_append, bind_run]
  rcases (first.mapM compiler.compileMethod : Compile _) s with ⟨_ | ms, t⟩
  · rfl
  · dsimp only
    rw [bind_run]
    rcases (second.mapM compiler.compileMethod : Compile _) t with ⟨_ | _, _⟩ <;> rfl

/-- Whether one of the sources has the name. -/
def Names (sources : List MethodSource) (name : Text) : Prop :=
  ∃ source ∈ sources, source.name.qualified = name

/-- The first half, compiled on its own, meets faults within its own bytes, takes its own names and
leaves a faithful cache. -/
theorem compileAll_first (compiler : Compiler) {a : Text} {first : List MethodSource}
    (hfirst : MethodSource.split a = .ok first) :
    let run := (first.mapM compiler.compileMethod : Compile _) .empty
    Aligned (.upTo (Text.size a)) run.1 run.1 ∧ (∀ entry ∈ run.2.names, Names first entry.1) ∧
      compiler.Trusts run.2.cache := by
  have hempty : compiler.Agree (.upTo (Text.size a)) (Names first) .empty .empty :=
    ⟨by simp [Session.empty], ⟨[], [], rfl, .nil, by simp⟩, compiler.trusts_empty,
      compiler.trusts_empty⟩
  obtain ⟨houtcome, hs⟩ := simulates_compileAll compiler (MethodSource.aligned_split_self hfirst)
    (fun m hm => ⟨m, hm, rfl⟩) .empty .empty hempty
  exact ⟨houtcome, hs.known, hs.cache.1⟩

/-- The second half, compiled behind the first, ends as it does on its own. -/
theorem compileAll_second {base : Nat} {second moved : List MethodSource}
    (hmoved : Aligned (.shift base) second moved) {s : Session}
    (hnames : ∀ entry ∈ s.names, ¬Names second entry.1) (hcache : compiler.Trusts s.cache) :
    Aligned (.shift base) ((second.mapM compiler.compileMethod : Compile _) .empty).1
      ((moved.mapM compiler.compileMethod : Compile _) s).1 := by
  have hs : compiler.Agree (.shift base) (Names second) .empty s :=
    ⟨by simp [Session.empty], ⟨[], s.names, rfl, .nil, hnames⟩, compiler.trusts_empty, hcache⟩
  exact (simulates_compileAll compiler hmoved (fun m hm => ⟨m, hm, rfl⟩) .empty s hs).1

/-- **Compilation of a file is compositional.** The halves are compiled with nothing compiled
before, and so is the whole. -/
theorem compiled_append (compiler : Compiler) (path : Path) {a b : Text}
    {first second : List MethodSource} (ha : Text.EndsLine a)
    (hb : MethodSource.StartsWithHeader b) (hfirst : MethodSource.split a = .ok first)
    (hsecond : MethodSource.split b = .ok second)
    (hnames : ∀ m ∈ first, ∀ n ∈ second, m.name.qualified ≠ n.name.qualified) :
    (∀ ma mb, compiler.compiled path a = .ok ma → compiler.compiled path b = .ok mb →
      compiler.compiled path (a ++ b) =
        .ok ⟨path, ma.methods ++ mb.methods.map (Method.shift (Text.size a))⟩) ∧
    (∀ fault, compiler.compiled path a = .error fault →
      compiler.compiled path (a ++ b) = .error fault) ∧
    (∀ ma fault, compiler.compiled path a = .ok ma → compiler.compiled path b = .error fault →
      compiler.compiled path (a ++ b) = .error (fault.behind a)) := by
  obtain ⟨moved, hsplit, hmoved⟩ := MethodSource.split_append ha hb hfirst hsecond
  obtain ⟨hself, hknown, hcache⟩ := compileAll_first compiler hfirst
  rw [compiled_eq hfirst, compiled_eq hsecond, compiled_eq hsplit, compileAll_append]
  generalize (first.mapM compiler.compileMethod : Compile _) .empty = run at hself hknown hcache
  obtain ⟨outcome, s⟩ := run
  cases outcome with
  | error fault =>
    cases hself with
    | error hself =>
      have hlocate := FileFault.locate_append_left path hself.span.start.2 b
      refine ⟨fun _ _ h => (nomatch h), fun f hf => ?_, fun _ _ h => (nomatch h)⟩
      dsimp only at hf ⊢
      rw [hlocate, hf]
  | ok ms =>
    have hfree : ∀ entry ∈ s.names, ¬Names second entry.1 := by
      intro entry hentry hname
      obtain ⟨m, hm, hmname⟩ := hknown entry hentry
      obtain ⟨n, hn, hnname⟩ := hname
      exact hnames m hm n hn (hmname.trans hnname.symm)
    have hrest := compileAll_second hmoved hfree hcache
    dsimp only
    generalize ((second.mapM compiler.compileMethod : Compile _) .empty).1 = alone,
      ((moved.mapM compiler.compileMethod : Compile _) s).1 = behind at hrest
    cases hrest with
    | ok hmethods =>
      have hmap := eq_map_of_aligned (fun _ _ => Method.eq_shift) hmethods
      refine ⟨fun ma mb hma hmb => ?_, fun _ h => (nomatch h), fun _ _ _ h => (nomatch h)⟩
      cases hma
      cases hmb
      rw [hmap]
      rfl
    | error hfault =>
      have hlocate := FileFault.locate_append_right path ha b
      refine ⟨fun _ _ _ h => (nomatch h), fun _ h => (nomatch h), fun ma f hma hf => ?_⟩
      cases hf
      rw [MethodFault.eq_shift hfault, ← hlocate]
      rfl

/-- A deletion of 36 bytes comes in front of a query, whose field and table are moved by them. -/
theorem compiled_append_deletion_query :
    let a : Text := "--name: a exec=affect\nDELETE FROM t\n".toList
    let b : Text := "--name: b returns=User\nSELECT x FROM u\n".toList
    let m : Method := ⟨⟨none, ['a']⟩, true, .mutation .affect,
      .static ⟨"DELETE FROM t".toList, [], []⟩, [], [], some "affect".toList,
      some ⟨.int64, false⟩, none, ⟨0, 36⟩⟩
    let n : Method := ⟨⟨none, ['b']⟩, false, .singleRow,
      .static ⟨"SELECT x FROM u".toList, [], []⟩,
      [⟨some ['u'], ['x'], none, false, false, ⟨30, 31⟩⟩], [⟨['u'], none, false, ⟨37, 38⟩⟩], none,
      some ⟨.named "User".toList, false⟩, none, ⟨0, 39⟩⟩
    standard.compiled ⟨[]⟩ a = .ok ⟨⟨[]⟩, [m]⟩ ∧ standard.compiled ⟨[]⟩ b = .ok ⟨⟨[]⟩, [n]⟩ ∧
      standard.compiled ⟨[]⟩ (a ++ b) = .ok ⟨⟨[]⟩, [m, n.shift 36]⟩ := by
  intro a b m n
  have ha : standard.compiled ⟨[]⟩ a = .ok ⟨⟨[]⟩, [m]⟩ := by decide +kernel
  have hb : standard.compiled ⟨[]⟩ b = .ok ⟨⟨[]⟩, [n]⟩ := by decide +kernel
  have happend := compiled_append standard ⟨[]⟩ (.inr rfl : Text.EndsLine a)
    (⟨_, rfl, rfl⟩ : MethodSource.StartsWithHeader b) rfl rfl (by decide)
  exact ⟨ha, hb, happend.1 _ _ ha hb⟩

end Compiler

end QueryTemplate
