import Ycetl.Proofs.HeaderTree
import Ycetl.Proofs.Webgpu
import Ycetl.Ref.Tools

/-!
# From the command line to the files

A command line is accepted if it is a list of options, each with its value, and
the last value for the header is not empty. What is said of the errors is where
in the list they come up.

Both programs together write the same bytes twice, as long as they fit into the
array that is between them.
-/

namespace Ycetl.Ref.Webgpu

open Ycetl.Lib

/-! ## The arguments -/

/-- Options and their values, as they are written on the command line. -/
def written (opts : List (CliOption × Text)) : List Text := opts.flatMap fun o => [o.1.name, o.2]

/-- The value that counts is the last one. -/
def lastValue (opts : List (CliOption × Text)) (o : CliOption) : Text :=
  ((opts.filter fun p => p.1 = o).getLast?.map Prod.snd).getD []

def CliArgs.given (opts : List (CliOption × Text)) : CliArgs :=
  ⟨lastValue opts .header, lastValue opts .python, lastValue opts .tree⟩

variable {a : Text} {o : CliOption} {opts : List (CliOption × Text)} {argv rest : List Text}

@[simp] theorem optionOf_name (o : CliOption) : optionOf o.name = some o := by
  cases o <;> decide

theorem eq_name_of_optionOf (h : optionOf a = some o) : a = o.name := by
  rw [optionOf] at h
  split at h
  · next ha =>
      cases h
      exact ha
  · split at h
    · next ha =>
        cases h
        exact ha
    · split at h
      · next ha =>
          cases h
          exact ha
      · cases h

theorem optionOf_eq_none_iff : optionOf a = none ↔ ∀ o : CliOption, a ≠ o.name := by
  constructor
  · rintro h o rfl
    rw [optionOf_name] at h
    cases h
  · intro h
    cases ha : optionOf a with
    | none => rfl
    | some o => exact absurd (eq_name_of_optionOf ha) (h o)

@[simp] theorem written_cons (o : CliOption) (v : Text) (opts : List (CliOption × Text)) :
    written ((o, v) :: opts) = o.name :: v :: written opts := rfl

/-- Each option is taken in its turn. -/
theorem parseArgs_written (opts : List (CliOption × Text)) (rest : List Text) (out : CliArgs) :
    parseArgs (written opts ++ rest) out =
      parseArgs rest (opts.foldl (fun out o => out.set o.2 o.1) out) := by
  induction opts generalizing out with
  | nil => rfl
  | cons p opts ih =>
      obtain ⟨o, v⟩ := p
      rw [written_cons, List.cons_append, List.cons_append, parseArgs, optionOf_name]
      exact ih (out.set v o)

theorem lastValue_concat (o o' : CliOption) (v : Text) :
    lastValue (opts ++ [(o, v)]) o' = if o = o' then v else lastValue opts o' := by
  rw [lastValue, lastValue, List.filter_append]
  split
  · next h => simp [h]
  · next h => simp [h]

theorem foldl_set (opts : List (CliOption × Text)) :
    opts.foldl (fun out o => out.set o.2 o.1) .empty = CliArgs.given opts := by
  induction opts using List.reverseRecOn with
  | nil => rfl
  | append_singleton opts p ih =>
      obtain ⟨o, v⟩ := p
      rw [List.foldl_append, ih]
      simp only [List.foldl_cons, List.foldl_nil, CliArgs.given, lastValue_concat]
      cases o <;> rfl

/-- Up to which argument all is well, and what is there. -/
theorem exists_written (l : List Text) : ∃ opts rest, l = written opts ++ rest ∧
    (rest = [] ∨ (∃ o : CliOption, rest = [o.name]) ∨
      ∃ a r, rest = a :: r ∧ ∀ o : CliOption, a ≠ o.name) := by
  induction l using List.twoStepInduction with
  | nil => exact ⟨[], [], rfl, .inl rfl⟩
  | singleton a =>
      cases ha : optionOf a with
      | some o => exact ⟨[], [a], rfl, .inr (.inl ⟨o, by rw [eq_name_of_optionOf ha]⟩)⟩
      | none => exact ⟨[], [a], rfl, .inr (.inr ⟨a, [], rfl, optionOf_eq_none_iff.mp ha⟩)⟩
  | cons_cons a v l ih _ =>
      cases ha : optionOf a with
      | some o =>
          obtain ⟨opts, rest, rfl, hrest⟩ := ih
          refine ⟨(o, v) :: opts, rest, ?_, hrest⟩
          rw [written_cons, eq_name_of_optionOf ha]
          rfl
      | none => exact ⟨[], _, rfl, .inr (.inr ⟨a, v :: l, rfl, optionOf_eq_none_iff.mp ha⟩)⟩

/-! What comes of the three kinds of ends. -/

theorem parseCli_written (h : argv.drop 1 = written opts) :
    parseCli argv =
      if (CliArgs.given opts).header = [] then .error .usage else .ok (CliArgs.given opts) := by
  rw [parseCli, h, ← List.append_nil (written opts), parseArgs_written, foldl_set, parseArgs]

theorem parseCli_missing (h : argv.drop 1 = written opts ++ [o.name]) :
    parseCli argv = .error (.missingValue o.name) := by
  rw [parseCli, h, parseArgs_written, parseArgs, optionOf_name]

theorem parseCli_unknown (h : argv.drop 1 = written opts ++ a :: rest)
    (ha : ∀ o : CliOption, a ≠ o.name) : parseCli argv = .error (.unknownArg a) := by
  have hnone := optionOf_eq_none_iff.mpr ha
  rw [parseCli, h, parseArgs_written]
  cases rest with
  | nil => rw [parseArgs, hnone]
  | cons v rest => rw [parseArgs, hnone]

/-- The command lines, and what is to become of them. -/
inductive CliReads : List Text → Except CliError CliArgs → Prop
  | accepted (opts : List (CliOption × Text)) (hheader : lastValue opts .header ≠ []) :
      CliReads (written opts) (.ok (CliArgs.given opts))
  | usage (opts : List (CliOption × Text)) (hheader : lastValue opts .header = []) :
      CliReads (written opts) (.error .usage)
  | missing (opts : List (CliOption × Text)) (o : CliOption) :
      CliReads (written opts ++ [o.name]) (.error (.missingValue o.name))
  | unknown (opts : List (CliOption × Text)) (a : Text) (rest : List Text)
      (ha : ∀ o : CliOption, a ≠ o.name) :
      CliReads (written opts ++ a :: rest) (.error (.unknownArg a))

/-- Every command line is one of them. -/
theorem exists_cliReads (l : List Text) : ∃ r, CliReads l r := by
  obtain ⟨opts, rest, rfl, rfl | ⟨o, rfl⟩ | ⟨a, r, rfl, ha⟩⟩ := exists_written l
  · rw [List.append_nil]
    by_cases hheader : lastValue opts .header = []
    · exact ⟨_, .usage opts hheader⟩
    · exact ⟨_, .accepted opts hheader⟩
  · exact ⟨_, .missing opts o⟩
  · exact ⟨_, .unknown opts a r ha⟩

theorem parseCli_of_cliReads {l : List Text} {r : Except CliError CliArgs} (h : CliReads l r)
    (hl : argv.drop 1 = l) : parseCli argv = r := by
  cases h with
  | accepted opts hheader => exact (parseCli_written hl).trans (if_neg hheader)
  | usage opts hheader => exact (parseCli_written hl).trans (if_pos hheader)
  | missing opts o => exact parseCli_missing hl
  | unknown opts a rest ha => exact parseCli_unknown hl ha

/-- `parse_cli` accepts the command lines that are well-formed, with the values
that are given last, and says of every other one what is wrong with it. -/
theorem parse_cli_iff (argv : List Text) (r : Except CliError CliArgs) :
    parseCli argv = r ↔ CliReads (argv.drop 1) r := by
  constructor
  · rintro rfl
    obtain ⟨r, hr⟩ := exists_cliReads (argv.drop 1)
    rwa [parseCli_of_cliReads hr rfl]
  · exact fun h => parseCli_of_cliReads h rfl

/-- No two errors have the same text. -/
theorem message_injective {e e' : CliError} (h : e.message = e'.message) : e = e' := by
  have hcancel : ∀ (s : String) (a b : Text),
      s.toList ++ a ++ "\n".toList = s.toList ++ b ++ "\n".toList → a = b :=
    fun s a b hab => List.append_cancel_left (List.append_cancel_right hab)
  cases e with
  | missingValue a =>
      cases e' with
      | missingValue b => rw [hcancel _ a b h]
      | unknownArg b | usage => cases h
  | unknownArg a =>
      cases e' with
      | unknownArg b => rw [hcancel _ a b h]
      | missingValue b | usage => cases h
  | usage =>
      cases e' with
      | usage => rfl
      | missingValue b | unknownArg b => cases h

/-- What is printed tells which error it was, and of which argument. -/
theorem cliPrints_eq_message_iff (argv : List Text) (e : CliError) :
    cliPrints argv = e.message ↔ parseCli argv = .error e := by
  rw [cliPrints]
  cases hp : parseCli argv with
  | ok args =>
      refine iff_of_false (fun h => ?_) (fun h => by cases h)
      cases e <;> cases h
  | error e' => exact ⟨fun h => by rw [message_injective h], fun h => by cases h; rfl⟩

/-! ## The baked module -/

/-- As much as there is room for is put behind what is there. -/
theorem bakeLoop_eq (s data : List UInt8) (i : Nat) (hdata : data.length = cap) (hi : i ≤ cap) :
    bakeLoop data i s = data.take i ++ s.take (cap - i) ++ data.drop (i + s.length) := by
  induction s generalizing data i with
  | nil => simp [bakeLoop]
  | cons c s ih =>
      rw [bakeLoop]
      split
      · next hlt =>
          rw [ih (data.set i c) (i + 1) (by rw [List.length_set, hdata]) hlt]
          obtain ⟨room, hroom⟩ := Nat.exists_eq_add_of_lt hlt
          have hnext : cap - (i + 1) = room := by omega
          have hall : cap - i = room + 1 := by omega
          have htake : (data.set i c).take (i + 1) = data.take i ++ [c] := by
            rw [List.take_add_one, List.take_set_of_le (Nat.le_refl i),
              List.getElem?_set_self (by omega)]
            rfl
          have hlength : i + 1 + s.length = i + (s.length + 1) := by omega
          rw [hnext, hall, htake, List.drop_set_of_lt (by omega), List.take_succ_cons,
            List.length_cons, hlength]
          simp
      · next hge =>
          have heq : i = cap := by omega
          subst heq
          rw [ih data cap hdata (Nat.le_refl _)]
          simp [hdata]

variable {ds : List Definition} {py : Baked}

/-- The array holds what fits into it; that it may be written as it is takes
that all of it does. -/
theorem build_fwrite {pools : Pools} {text : Text} (hread : readPools ds = some pools)
    (htext : buildInto pools = some text) : ∃ py, build ds = some py ∧
      py.fwrite = if (utf8 text).length ≤ cap then some (utf8 text) else none := by
  have hbake := bakeLoop_eq (utf8 text) (List.replicate cap 0) 0 List.length_replicate
    (Nat.zero_le _)
  rw [List.take_zero, List.nil_append, Nat.sub_zero, Nat.zero_add, List.drop_replicate] at hbake
  have hlength : (bakeLoop (List.replicate cap 0) 0 (utf8 text)).length = cap := by
    rw [hbake, List.length_append, List.length_take, List.length_replicate]
    omega
  refine ⟨⟨(utf8 text).length, bakeLoop (List.replicate cap 0) 0 (utf8 text)⟩, ?_, ?_⟩
  · simp [build, hread, htext]
  · rw [Baked.fwrite, hlength]
    split
    · next hle =>
        show some ((bakeLoop (List.replicate cap 0) 0 (utf8 text)).take (utf8 text).length) = _
        rw [hbake, List.take_of_length_le hle, List.take_left]
    · rfl

/-! ## Both programs -/

theorem Files.write_self {opens : Text → Bool} {path : Text} (h : opens path = true)
    (files : Files) (c : Content) : files.write opens path c path = some c := by
  rw [Files.write, if_pos h, Function.update_self]

theorem Files.write_ne {opens : Text → Bool} {path path' : Text} (h : path' ≠ path)
    (files : Files) (c : Content) : files.write opens path c path' = files path' := by
  rw [Files.write]
  split
  · exact Function.update_of_ne h _ _
  · rfl

/-- The text is the same whether it is made of the tree or of what the compiler
reads. -/
theorem both_texts {tree : ApiTree} (h : tree.Plain) : ∃ ds pools text,
    emitTree tree = some ds ∧ readPools ds = some pools ∧ buildInto pools = some text ∧
      emitPython tree = some text := by
  obtain ⟨order, hpython, htree, hlt⟩ := topoSort_eq tree.records
  obtain ⟨aliases, hread, haliases⟩ := spells_aliases h
  obtain ⟨ds, hds, hpools⟩ := readPools_emitTree h htree hread
  obtain ⟨tables, htables, hbuild⟩ := buildInto_pools tree hlt aliases
  refine ⟨ds, tree.pools order aliases, _, hds, hpools, hbuild, ?_⟩
  simp only [emitPython, hpython, Option.bind_eq_bind, Option.bind_some, htables, haliases]

theorem emitPy_iff {opens : Text → Bool} {bs : List UInt8}
    (hfwrite : py.fwrite = if bs.length ≤ cap then some bs else none)
    (hpath : opens (emitPath argv) = true) (files : Files) :
    (∃ files', emitPy opens py argv files = some (0, files') ∧
      files' (emitPath argv) = some (.bytes bs)) ↔ bs.length ≤ cap := by
  rw [emitPy, if_pos hpath, hfwrite]
  split
  · next hle => exact ⟨fun _ => hle, fun _ => ⟨_, rfl, Files.write_self hpath files (.bytes bs)⟩⟩
  · next hlong =>
      refine ⟨?_, fun hle => absurd hle hlong⟩
      rintro ⟨files', hrun, -⟩
      cases hrun

section

variable (T : Target) (parse : Text → Option (List Cursor)) (sort : ApiTree → ApiTree)
  (opens : Text → Bool)

/-- A run with both outputs, and another one of the program that is compiled
with the second: it writes what is in the first, just if that is not too long
for the array. What is too long cannot be written, since `fwrite` would read
past the end. -/
theorem both_files_agree_iff {argv : List Text} {args : CliArgs} {cursors : List Cursor}
    (hargs : parseCli argv = .ok args) (hparse : parse args.header = some cursors)
    (hplain : (sort (collect T cursors)).Plain) (hpython : args.pythonOut ≠ [])
    (htree : args.treeOut ≠ []) (hne : args.pythonOut ≠ args.treeOut)
    (hopens : opens args.pythonOut = true ∧ opens args.treeOut = true) (files : Files) :
    ∃ files' bs ds py, introspect T parse sort opens argv files = some (0, files') ∧
      files' args.pythonOut = some (.bytes bs) ∧ files' args.treeOut = some (.header ds) ∧
      (∀ path, path ≠ args.pythonOut → path ≠ args.treeOut → files' path = files path) ∧
      build ds = some py ∧ (cap < bs.length → py.fwrite = none) ∧
      ∀ argv', opens (emitPath argv') = true →
        ((∃ files'', emitPy opens py argv' files' = some (0, files'') ∧
          files'' (emitPath argv') = some (.bytes bs)) ↔ bs.length ≤ cap) := by
  obtain ⟨ds, pools, text, hds, hread, htext, hemit⟩ := both_texts hplain
  obtain ⟨py, hbuild, hfwrite⟩ := build_fwrite hread htext
  refine ⟨(files.write opens args.pythonOut (.bytes (utf8 text))).write opens args.treeOut
    (.header ds), utf8 text, ds, py, ?_, ?_, ?_, ?_, hbuild, ?_,
    fun argv' hpath => emitPy_iff hfwrite hpath _⟩
  · simp [introspect, hargs, hparse, hpython, htree, hemit, hds]
  · rw [Files.write_ne hne, Files.write_self hopens.1]
  · exact Files.write_self hopens.2 _ _
  · intro path hp ht
    rw [Files.write_ne ht, Files.write_ne hp]
  · intro hlong
    rw [hfwrite, if_neg (Nat.not_le.mpr hlong)]

end

/-- `webgpu_introspect --header h --python p --tree t` -/
def bothOutputs : List Text :=
  ["webgpu_introspect".toList, "--header".toList, ['h'], "--python".toList, ['p'],
    "--tree".toList, ['t']]

theorem both_files_agree_constants :
    ∃ files' bs ds py, introspect lp64 (fun _ => some constantsAB) id (fun _ => true)
        bothOutputs (fun _ => none) = some (0, files') ∧
      files' ['p'] = some (.bytes bs) ∧ files' ['t'] = some (.header ds) ∧
      (∀ path, path ≠ ['p'] → path ≠ ['t'] → files' path = none) ∧ build ds = some py ∧
      (cap < bs.length → py.fwrite = none) ∧
      ∀ argv' : List Text, true = true →
        ((∃ files'', emitPy (fun _ => true) py argv' files' = some (0, files'') ∧
          files'' (emitPath argv') = some (.bytes bs)) ↔ bs.length ≤ cap) := by
  refine both_files_agree_iff lp64 (fun _ => some constantsAB) id
    (fun _ => true) (by decide : parseCli bothOutputs = .ok ⟨['h'], ['p'], ['t']⟩) rfl
    ⟨fun r hr => absurd hr List.not_mem_nil, fun e he => absurd he List.not_mem_nil,
      fun t ht => absurd ht List.not_mem_nil, fun f hf => absurd hf List.not_mem_nil,
      fun c hc => ?_⟩ (by decide) (by decide) (by decide) ⟨rfl, rfl⟩ (fun _ => none)
  rcases List.mem_pair.mp hc with rfl | rfl
  · exact ⟨by decide, by decide⟩
  · exact ⟨by decide, by decide⟩

end Ycetl.Ref.Webgpu
