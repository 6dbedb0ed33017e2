/-
A run with a saved bimachine repeats the run that saved it.

The first run compiles its rules, saves the bimachine and rewrites the lines of the input with it.
Up to there it prints nothing, so all of its output comes from the bimachine, and the second run
has the same bimachine:

* `Bimachine.savable_of_toBimachine` — a compiled bimachine can be saved;
* `CommandLine.Script.GivesQuietly` — a script gives a value and prints nothing, or it fails;
* `CommandLine.Script.run_of_saving` — what a run that saves a bimachine leaves behind;
* `CommandLine.Script.run_of_loading` — what a run that loads one leaves behind;
* `CommandLine.Script.printed_again` — both print the same.
-/
import Transduction.Proofs.Prefixes
import Transduction.Proofs.SavedBimachines

namespace Transduction

/-! ### Compiled bimachines -/

theorem Bimachine.table_ascending_mergeRight {left right : Dfa} {table : OutputTable} :
    (mergeRight left right table).table.Pairwise fun a b => compare a.1 b.1 = .lt := by
  rw [mergeRight_eq]
  exact OutputTable.ofEntries_ascending

/-- A compiled bimachine can be saved: its table names states only. -/
theorem Bimachine.savable_of_toBimachine {f : Transducer} {alphabet : List Char} {b : Bimachine}
    (hf : f.WellFormed) (h : f.toBimachine alphabet = .ok b) (hleft : b.left.size < 2 ^ 64)
    (hright : b.right.size < 2 ^ 64) : b.Savable := by
  obtain ⟨hwfLeft, hwfRight⟩ := Operation.wellFormed_of_toBimachine h
  obtain ⟨m, hm, rfl⟩ := Transducer.toBimachine_eq_ok_iff.mp h
  have hclosed : m.Closed := Transducer.closed_of_toRealTime hf.closed hm
  refine ⟨hwfLeft, hwfRight, hleft, hright, fun l c r w hentry => ?_, table_ascending_mergeRight⟩
  obtain ⟨p, s, _, _, hl, hr⟩ :=
    (mem_keys_ofRealTime_iff hclosed (ascending_symbols_pairwise alphabet)).mp ⟨w, hentry⟩
  have hlsize := follow_keeps (P := (· < (ofRealTime m (ascending alphabet)).left.size))
    (fun _ _ _ _ => hwfLeft.delta_lt) hwfLeft.start_lt hl
  have hrsize := follow_keeps (P := (· < (ofRealTime m (ascending alphabet)).right.size))
    (fun _ _ _ _ => hwfRight.delta_lt) hwfRight.start_lt hr
  exact ⟨hlsize.trans hleft, hrsize.trans hright⟩

/-- What a bimachine makes of lines, each with a line break; lines outside its domain are left
out. -/
def Bimachine.rewritten (b : Bimachine) (lines : List (List Char)) : List String :=
  lines.filterMap fun line =>
    (b.process line).toOption.map fun w => String.ofList (w ++ ['\n'])

namespace CommandLine

/-- The cascade that options ask for, if they name rules and a policy. -/
def Options.cascade? (o : Options) : Option Cascade := do
  let rule ← ruleOfPairs o.rules
  let policy ← policyOfName? (o.policy.getD "lml")
  return {
    alphabet := (o.alphabet.map (·.toList)).getD defaultAlphabet
    stages := [{ name := "rules", rule := rule, policy := policy }] }

/-- The bimachine that options ask for, if their cascade has one. -/
def Options.bimachine? (o : Options) : Option Bimachine := do (← o.cascade?).toBimachine.toOption

namespace Script

variable {α β σ : Type} [FileStore σ] {input : String} {o : Outcome σ}

/-! ### Scripts that print nothing -/

/-- On a store of files the script gives the value, prints nothing and leaves the input alone, or
it fails. -/
def GivesQuietly (σ : Type) [FileStore σ] (x : Script α) (a : α) : Prop :=
  ∀ (f : α → Script Unit) (input : String) (o : Outcome σ),
    ((x >>= f).runFrom input o).code = 0 →
      ∃ o', o'.printed = o.printed ∧ (x >>= f).runFrom input o = (f a).runFrom input o'

theorem givesQuietly_pure (a : α) : GivesQuietly σ (pure a) a :=
  fun _ _ o _ => ⟨o, rfl, rfl⟩

theorem GivesQuietly.bind {x : Script α} {a : α} {g : α → Script β} {c : β}
    (hx : GivesQuietly σ x a) (hg : GivesQuietly σ (g a) c) : GivesQuietly σ (x >>= g) c := by
  intro f input o hcode
  rw [bind_assoc] at hcode ⊢
  obtain ⟨o₁, hprinted₁, hrun₁⟩ := hx _ input o hcode
  rw [hrun₁] at hcode
  obtain ⟨o₂, hprinted₂, hrun₂⟩ := hg f input o₁ hcode
  exact ⟨o₂, hprinted₂.trans hprinted₁, hrun₁.trans hrun₂⟩

theorem givesQuietly_note (n : Note) : GivesQuietly σ (note n (.done ())) () :=
  fun _ _ o _ => ⟨{ o with notes := n :: o.notes }, rfl, rfl⟩

theorem givesQuietly_ofLogged (x : Logged α) : GivesQuietly σ (ofLogged x) x.value := by
  rw [ofLogged]
  induction x.notes with
  | nil => exact givesQuietly_pure x.value
  | cons n notes ih =>
    intro f input o hcode
    exact ih f input { o with notes := n :: o.notes } hcode

theorem givesQuietly_saveFile (path text : String) (n : Note) :
    GivesQuietly σ (saveFile path text n) () := by
  intro f input o hcode
  cases h : FileStore.write? o.folder path text with
  | none =>
    rw [runFrom_saveFile_of_none h] at hcode
    cases hcode
  | some folder =>
    exact ⟨{ o with notes := n :: o.notes, folder := folder }, rfl, runFrom_saveFile h f⟩

theorem givesQuietly_drawBimachine (drawing : Option String) (b : Bimachine) :
    GivesQuietly σ (drawBimachine drawing b) () := by
  cases drawing with
  | none => exact givesQuietly_pure ()
  | some path => exact (givesQuietly_saveFile _ _ _).bind (givesQuietly_saveFile _ _ _)

/-- Draws a rewriter, if a name for the drawings is given. -/
def drawRewriter (drawing : Option String) (m : Transducer) : Script Unit := do
  match drawing with
  | none => return
  | some path => saveDrawing (path ++ "_rewriter") (.ofTransducer m)

theorem givesQuietly_drawRewriter (drawing : Option String) (m : Transducer) :
    GivesQuietly σ (drawRewriter drawing m) () := by
  cases drawing with
  | none => exact givesQuietly_pure ()
  | some path => exact givesQuietly_saveFile _ _ _

/-- Compiles a cascade and draws its rewriter. -/
def compile (drawing : Option String) (c : Cascade) :
    Script (Except TransducerError Bimachine) := do
  let rewriter ← ofLogged (Logged.cascadeTransducer c)
  drawRewriter drawing rewriter
  ofLogged (Logged.toBimachine rewriter c.alphabet)

theorem givesQuietly_compile (drawing : Option String) (c : Cascade) :
    GivesQuietly σ (compile drawing c) c.toBimachine := by
  have hrewriter := givesQuietly_ofLogged (σ := σ) (Logged.cascadeTransducer c)
  have hbimachine := givesQuietly_ofLogged (σ := σ)
    (Logged.toBimachine (Logged.cascadeTransducer c).value c.alphabet)
  rw [Logged.value_toBimachine] at hbimachine
  rw [Logged.value_cascadeTransducer] at hrewriter hbimachine
  exact hrewriter.bind ((givesQuietly_drawRewriter drawing _).bind hbimachine)

/-! ### Runs on lines -/

theorem runFrom_rewriteLines (b : Bimachine) (ls : List (List Char)) (input : String)
    (o : Outcome σ) : (rewriteLines b ls).runFrom input o =
      { o with printed := (b.rewritten ls).reverse ++ o.printed } := by
  induction ls generalizing o with
  | nil => rfl
  | cons line ls ih =>
    cases h : b.process line with
    | error e =>
      have hrewritten : b.rewritten (line :: ls) = b.rewritten ls := by
        simp [Bimachine.rewritten, h, Except.toOption]
      rw [rewriteLines, h, hrewritten]
      exact ih o
    | ok w =>
      have hrewritten : b.rewritten (line :: ls) =
          String.ofList (w ++ ['\n']) :: b.rewritten ls := by
        simp [Bimachine.rewritten, h, Except.toOption]
      rw [rewriteLines, h, hrewritten, List.reverse_cons, List.append_assoc]
      exact ih { o with printed := String.ofList (w ++ ['\n']) :: o.printed }

/-- What is left to do when the bimachine is there: it is drawn and saved, and rewrites the
input. -/
def rewriteWith (drawing : Option String) (file : String) (b : Bimachine) : Script Unit := do
  note (.build (.built b.left.size b.right.size)) (.done ())
  drawBimachine drawing b
  saveBimachine file b
  rewriteLines b (← inputLines none)

theorem runFrom_rewriteWith {drawing : Option String} {file : String} {b : Bimachine}
    (hback : FileStore.ReadsBack σ file)
    (hcode : ((rewriteWith drawing file b).runFrom input o).code = 0) :
    FileStore.read? ((rewriteWith drawing file b).runFrom input o).folder file = some b.save ∧
      ((rewriteWith drawing file b).runFrom input o).printed =
        (b.rewritten (lines input.toList)).reverse ++ o.printed := by
  -- The note and the drawing write no line and leave the rest of the run as it is.
  have hquiet : GivesQuietly σ (do
      note (.build (.built b.left.size b.right.size)) (.done ())
      drawBimachine drawing b) () :=
    (givesQuietly_note _).bind (givesQuietly_drawBimachine drawing b)
  obtain ⟨o', hprinted, hrun⟩ := hquiet
    (fun _ => do saveBimachine file b; rewriteLines b (← inputLines none)) input o hcode
  have hrun' : (rewriteWith drawing file b).runFrom input o =
      (saveBimachine file b >>= fun _ => do rewriteLines b (← inputLines none)).runFrom input o' :=
    hrun
  rw [hrun'] at hcode ⊢
  cases hwritten : FileStore.write? o'.folder file b.save with
  | none =>
    rw [saveBimachine, runFrom_saveFile_of_none hwritten] at hcode
    cases hcode
  -- Saving has succeeded, since the run has ended with code 0.
  | some folder =>
    have hlines (o : Outcome σ) :
        (inputLines none >>= fun ls => rewriteLines b ls).runFrom input o =
          (rewriteLines b (lines input.toList)).runFrom "" o := rfl
    rw [saveBimachine, runFrom_saveFile hwritten, hlines, runFrom_rewriteLines]
    exact ⟨hback hwritten, congrArg _ hprinted⟩

theorem rewriteCompiled_eq {o : Options} {file : String} {rule : Transducer} {policy : Policy}
    (hsave : o.save = some file) (hinput : o.input = none) (hrule : ruleOfPairs o.rules = some rule)
    (hname : policyOfName? (o.policy.getD "lml") = some policy) (hpolicy : policy ≠ .optional) :
    ∃ c, o.cascade? = some c ∧ rewriteCompiled o = (do
      match ← compile o.drawing c with
      | .error _ => fail
      | .ok b => rewriteWith o.drawing file b) := by
  refine ⟨_, by rw [Options.cascade?, hrule, hname]; rfl, ?_⟩
  unfold rewriteCompiled
  rw [hrule, hname, compile, bind_assoc]
  simp only [if_neg hpolicy, hinput, hsave]
  cases o.drawing with
  | none => rfl
  | some path =>
    simp only [drawRewriter, bind_assoc]
    rfl

/-- A run that saves a bimachine leaves its text in the file, and prints what it makes of the
lines of the input. -/
theorem run_of_saving {o : Options} {file : String} (hsave : o.save = some file)
    (hinput : o.input = none) (hpolicy : policyOfName? (o.policy.getD "lml") ≠ some .optional)
    (hback : FileStore.ReadsBack σ file) {start : Outcome σ}
    (hcode : ((rewriteCompiled o).runFrom input start).code = 0) :
    ∃ b, o.bimachine? = some b ∧
      FileStore.read? ((rewriteCompiled o).runFrom input start).folder file = some b.save ∧
      ((rewriteCompiled o).runFrom input start).printed =
        (b.rewritten (lines input.toList)).reverse ++ start.printed := by
  -- A run that ends with code 0 has got through each step: the pairs make a rule, the policy has
  -- a name and the rule compiles.
  cases hrule : ruleOfPairs o.rules with
  | none =>
    rw [rewriteCompiled, hrule] at hcode
    cases hcode
  | some rule =>
    cases hname : policyOfName? (o.policy.getD "lml") with
    | none =>
      rw [rewriteCompiled, hrule, hname] at hcode
      cases hcode
    | some policy =>
      have hne : policy ≠ .optional := fun h => hpolicy (hname.trans (congrArg some h))
      -- From here on the run is that of the compiled rule.
      obtain ⟨c, hc, hcompiled⟩ := rewriteCompiled_eq hsave hinput hrule hname hne
      rw [hcompiled] at hcode ⊢
      obtain ⟨o', hprinted', hrun⟩ := givesQuietly_compile o.drawing c _ input start hcode
      rw [hrun] at hcode ⊢
      -- Compilation into a bimachine may fail too, and then nothing is saved.
      cases hb : c.toBimachine with
      | error e =>
        rw [hb] at hcode
        cases hcode
      | ok b =>
        rw [hb] at hcode
        obtain ⟨hfile, hprinted⟩ := runFrom_rewriteWith hback hcode
        refine ⟨b, ?_, hfile, hprinted.trans (congrArg _ hprinted')⟩
        rw [Options.bimachine?, hc]
        show c.toBimachine.toOption = some b
        rw [hb]
        rfl

/-- A run that loads a bimachine prints what it makes of the lines of the input. -/
theorem run_of_loading {o : Options} {file text : String} {b : Bimachine} {start : Outcome σ}
    (hinput : o.input = none) (hdrawing : o.drawing = none)
    (hread : FileStore.read? start.folder file = some text) (hload : Bimachine.load text = .ok b) :
    (rewriteSaved o file).runFrom input start =
      { start with printed := (b.rewritten (lines input.toList)).reverse ++ start.printed } := by
  rw [rewriteSaved, runFrom_loadBimachine hread hload, hinput, hdrawing]
  exact runFrom_rewriteLines b (lines input.toList) "" start

theorem savable_of_bimachine? {o : Options} {b : Bimachine} (h : o.bimachine? = some b)
    (hleft : b.left.size < 2 ^ 64) (hright : b.right.size < 2 ^ 64) : b.Savable := by
  obtain ⟨c, _, hb⟩ := Option.bind_eq_some_iff.mp h
  exact Bimachine.savable_of_toBimachine Cascade.wellFormed_toTransducer
    (Operation.eq_ok_of_toOption hb) hleft hright

/-- After a run that compiles rules, saves the bimachine and succeeds, a run that loads it from the
file succeeds on the same input and prints the same lines.  Both print what the bimachine makes of
each line and leave out those outside its domain.  This is so in whatever order the moves and
symbols were written to the file.  The file is any path of any store of files that gives back what
is written to it.  States have 64 bits, as in the saved text. -/
theorem printed_again {args₁ args₂ : List String} {o₁ o₂ : Options} {file input : String}
    {folder : σ} {first : Outcome σ}
    (hsaving : Options.parse args₁ = .ok o₁) (hload₁ : o₁.load = none) (hinput₁ : o₁.input = none)
    (hsave : o₁.save = some file)
    (hpolicy : policyOfName? (o₁.policy.getD "lml") ≠ some .optional)
    (hsize : ∀ b, o₁.bimachine? = some b → b.left.size < 2 ^ 64 ∧ b.right.size < 2 ^ 64)
    (hback : FileStore.ReadsBack σ file)
    (hfirst : (program args₁).run folder input = first) (hcode : first.code = 0)
    (hloading : Options.parse args₂ = .ok o₂) (hload₂ : o₂.load = some file)
    (hinput₂ : o₂.input = none) (hdrawing : o₂.drawing = none) :
    ((program args₂).run first.folder input).code = 0 ∧
      ((program args₂).run first.folder input).printed = first.printed ∧
      ∃ b, o₁.bimachine? = some b ∧
        (FileStore.read? first.folder file).map Bimachine.load = some (.ok b) ∧
        first.printed.reverse = b.rewritten (lines input.toList) ∧
        ∀ (b' : Bimachine) (folder' : σ), b'.Lists b →
          FileStore.read? folder' file = some b'.save →
          ((program args₂).run folder' input).code = 0 ∧
            ((program args₂).run folder' input).printed = first.printed := by
  have hprogram₁ : program args₁ = rewriteCompiled o₁ := by
    rw [program, hsaving]
    simp only [hload₁]
  have hprogram₂ : program args₂ = rewriteSaved o₂ file := by
    rw [program, hloading]
    simp only [hload₂]
  have hrun₁ : (rewriteCompiled o₁).runFrom input { folder := folder } = first :=
    hprogram₁ ▸ hfirst
  rw [← hrun₁] at hcode
  obtain ⟨b, hb, hfile, hprinted⟩ := run_of_saving hsave hinput₁ hpolicy hback hcode
  rw [hrun₁] at hfile hprinted
  rw [List.append_nil] at hprinted
  obtain ⟨hleft, hright⟩ := hsize b hb
  -- the second run depends on the file alone, so it is stated of every listing that was saved
  have hsavable : b.Savable := savable_of_bimachine? hb hleft hright
  have hagain : ∀ (b' : Bimachine) (folder' : σ), b'.Lists b →
      FileStore.read? folder' file = some b'.save →
      ((program args₂).run folder' input).code = 0 ∧
        ((program args₂).run folder' input).printed = first.printed := by
    intro b' folder' hlists hread
    have hrun₂ : (rewriteSaved o₂ file).runFrom input { folder := folder' } = _ :=
      run_of_loading hinput₂ hdrawing hread (hsavable.load_save hlists)
    rw [hprogram₂, run, hrun₂, hprinted, List.append_nil]
    exact ⟨rfl, rfl⟩
  obtain ⟨hcode₂, hprinted₂⟩ := hagain b first.folder (.refl b) hfile
  refine ⟨hcode₂, hprinted₂, b, hb, ?_, ?_, hagain⟩
  · rw [hfile, Option.map_some, hsavable.load_save (.refl b)]
  · rw [hprinted, List.reverse_reverse]

/-- Arguments with an overlapping, a repeated and an empty literal. -/
def savingArguments : List String :=
  ["-r", "a", "b", "-r", "ab", "", "-r", "a", "b", "-r", "", "c", "-a", "ab", "-s", "m.json"]

def savingOptions : Options where
  rules := [("a", "b"), ("ab", ""), ("a", "b"), ("", "c")]
  alphabet := some "ab"
  save := some "m.json"

/-- A run with these arguments.  The second line is outside the domain. -/
def savingRun : Outcome Folder := (program savingArguments).run {} "aab\nc\nba\n"

theorem printed_again_savingArguments :
    savingRun.printed = ["bb\n", "b\n"] ∧
      ((program ["-l", "m.json"]).run savingRun.folder "aab\nc\nba\n").code = 0 ∧
      ((program ["-l", "m.json"]).run savingRun.folder "aab\nc\nba\n").printed =
        ["bb\n", "b\n"] := by
  have hsaving : Options.parse savingArguments = .ok savingOptions := by decide +kernel
  have hloading : Options.parse ["-l", "m.json"] = .ok { load := some "m.json" } := by
    decide +kernel
  have hsizes : ∀ b ∈ savingOptions.bimachine?, b.left.size < 8 ∧ b.right.size < 8 := by
    decide +kernel
  have hsize : ∀ b, savingOptions.bimachine? = some b →
      b.left.size < 2 ^ 64 ∧ b.right.size < 2 ^ 64 := by
    intro b hb
    obtain ⟨hleft, hright⟩ := hsizes b hb
    omega
  have hcode : savingRun.code = 0 := by decide +kernel
  have hprinted : savingRun.printed = ["bb\n", "b\n"] := by decide +kernel
  obtain ⟨hcode₂, hprinted₂, _⟩ := printed_again hsaving rfl rfl rfl (by decide +kernel) hsize
    (Folder.readsBack "m.json") rfl hcode hloading rfl rfl rfl
  exact ⟨hprinted, hcode₂, hprinted₂.trans hprinted⟩

end Script

end CommandLine

end Transduction
