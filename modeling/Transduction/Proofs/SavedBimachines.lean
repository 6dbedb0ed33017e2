/-
Saved bimachines are loaded unchanged.

A saved text lists the moves of a state and the symbols of an alphabet, and reading it puts them
in order again.  So it does not matter in which order they are written, and a listing of a
bimachine is one that has the same moves and symbols in any order:

* `ascending_of_perm`, `OutputTable.ofEntries_of_ascending` — what was in order is found again;
* `Dfa.Lists`, `Bimachine.Lists` — the listings of automata and bimachines;
* `Saved.reads_dfa`, `Saved.reads_entry`, `Bimachine.reads_bimachine` — each part is read back from
  the text of a listing;
* `Bimachine.Savable.load_save` — so is a whole text;
* `CommandLine.Script.loadBimachine_saveBimachine` — a bimachine that is saved to a file and loaded
  from it is the same again.

Numbers have 64 bits in a saved text, so this holds where no number is larger.
-/
import Mathlib.Data.List.Sort
import Transduction.CommandLine.Program
import Transduction.Proofs.Distinguishing
import Transduction.Proofs.ReadBack

namespace Transduction

/-! ### What is put in order again -/

/-- An ascending list is found again from its members in any order. -/
theorem ascending_of_perm {xs ys : List Char} (hxs : xs.Pairwise (· < ·)) (h : ys.Perm xs) :
    ascending ys = xs := by
  have hys : (ascending ys).Pairwise (· < ·) := ascending_symbols_pairwise ys
  refine hys.eq_of_mem_iff hxs fun c => ?_
  rw [mem_ascending, h.mem_iff]

namespace OutputTable

variable {table : OutputTable}

/-- A table in order is found again from its entries. -/
theorem ofEntries_of_ascending (h : table.Pairwise fun a b => compare a.1 b.1 = .lt) :
    ofEntries table = table :=
  eq_of_keys_ascending ofEntries_ascending h fun _ => mem_ofEntries_iff (functional_of_ascending h)

end OutputTable

/-! ### Listings -/

/-- The parts of the second automaton, with the moves of each state and the symbols of the alphabet
in any order. -/
structure Dfa.Lists (d' d : Dfa) : Prop where
  rows : List.Forall₂ List.Perm d'.rows.toList d.rows.toList
  start : d'.start = d.start
  accepting : d'.accepting = d.accepting
  alphabet : d'.alphabet.Perm d.alphabet

theorem Dfa.Lists.refl (d : Dfa) : d.Lists d where
  rows := List.forall₂_same.mpr fun row _ => List.Perm.refl row
  start := rfl
  accepting := rfl
  alphabet := List.Perm.refl _

/-- The parts of the second bimachine, with listings of its automata. -/
structure Bimachine.Lists (b' b : Bimachine) : Prop where
  left : b'.left.Lists b.left
  right : b'.right.Lists b.right
  table : b'.table = b.table

theorem Bimachine.Lists.refl (b : Bimachine) : b.Lists b where
  left := .refl b.left
  right := .refl b.right
  table := rfl

/-! ### Parts -/

namespace Saved

open Json

variable {bound depth n : Nat} {d d' : Dfa} {row moves : List (Char × Nat)}

theorem reads_number (hn : n < 2 ^ 64) : Reads readNumber (decimal n) n :=
  reads_natural (Nat.le_refl _) hn

theorem reads_byte (hn : n < 2 ^ 8) : Reads readByte (decimal n) n :=
  reads_natural (Nat.pow_le_pow_right (by decide) (by decide)) hn

theorem reads_head (lead : Fin 8)
    (hbound : (fields depth [("width", decimal 8), ("index", decimal lead)]).length < bound) :
    Reads (readHead bound) (fields depth [("width", decimal 8), ("index", decimal lead)]) lead := by
  refine reads_record (e := { width := some 8, index := some lead.val }) ?_ (by simp) ?_ hbound
  · exact .enter rfl (fun _ => (reads_byte (by decide)).map _) <|
      .enter rfl (fun _ => (reads_byte (by omega)).map _) .done
  · simp [required]

theorem reads_order : Reads readOrder (quote bitOrder.toList) () where
  opens := (reads_text bitOrder.toList).opens
  run gap rest hgap hrest := by
    rw [readOrder, run_bind ((reads_text bitOrder.toList).run gap rest hgap hrest)]
    simp
    rfl

theorem lt_of_mem_pack {bits : List Bool} {byte : Nat} (h : byte ∈ Bits.pack bits) :
    byte < 2 ^ 8 := by
  fun_induction Bits.pack bits with
  | case1 => cases h
  | case2 b bits ih =>
    rcases List.mem_cons.mp h with rfl | h
    · have hlength : (b :: bits.take 7).length ≤ 8 := by
        rw [List.length_cons, List.length_take]
        omega
      exact Nat.lt_of_lt_of_le (Bits.toByte_lt _) (Nat.pow_le_pow_right (by decide) hlength)
    · exact ih h

theorem reads_bytes (bytes : List Nat) (h : ∀ byte ∈ bytes, byte < 2 ^ 8)
    (hbound : (array depth (bytes.map decimal)).length < bound) :
    Reads (list readByte bound) (array depth (bytes.map decimal)) bytes :=
  reads_list (List.forall₂_map_left_iff.mpr
    (List.forall₂_same.mpr fun byte hbyte _ => reads_byte (h byte hbyte))) hbound

theorem reads_marks (m : Marks) (hsize : m.size < 2 ^ 64)
    (hbound : (writeMarks depth m).length < bound) :
    Reads (readMarks bound) (writeMarks depth m) m := by
  refine reads_record (e := { order := some (), head := some m.lead, bits := some m.size,
                              data := some m.toBytes }) ?_ (by simp) ?_ hbound
  · exact .enter rfl (fun _ => reads_order.map _) <|
      .enter rfl (fun h => (reads_head m.lead h).map _) <|
      .enter rfl (fun _ => (reads_number hsize).map _) <|
      .enter rfl (fun h => (reads_bytes m.toBytes (fun _ => lt_of_mem_pack) h).map _) .done
  · simp [required, Marks.ofBytes?_toBytes]

/-- The moves of a state are read back in order. -/
theorem reads_row (hrow : row.Pairwise fun a b => a.1 < b.1) (hmoves : moves.Perm row)
    (htargets : ∀ move ∈ row, move.2 < 2 ^ 64) (hbound : (writeRow depth moves).length < bound) :
    Reads (readRow bound) (writeRow depth moves) row := by
  have hentries
      (h : (object (depth + 1) (moves.map fun m => ([m.1], decimal m.2))).length < bound) :
      Reads (dictionary single readNumber bound)
        (object (depth + 1) (moves.map fun m => ([m.1], decimal m.2))) moves :=
    reads_dictionary (List.forall₂_map_left_iff.mpr (List.forall₂_same.mpr fun move hmove =>
      ⟨rfl, reads_number (htargets move (hmoves.mem_iff.mp hmove))⟩)) h
  refine reads_record (e := some row) ?_ (by simp) rfl hbound
  refine .enter rfl (fun h => ?_) .done
  have hread := (hentries h).map fun entries =>
    some (entries.foldl (fun row entry => Row.set entry.1 entry.2 row) [])
  rw [Row.foldl_set_of_perm hrow hmoves] at hread
  exact hread

/-- An automaton is read back from a listing. -/
theorem reads_dfa (hd : d.WellFormed) (hsize : d.size < 2 ^ 64) (hlists : d'.Lists d)
    (hbound : (writeDfa depth d').length < bound) :
    Reads (readDfa bound) (writeDfa depth d') d := by
  -- Symbols ascend along a row and targets fit into 64 bits, which is what its reader relies on.
  have hrow : ∀ row ∈ d.rows.toList, (row.Pairwise fun a b => a.1 < b.1) ∧
      ∀ move ∈ row, move.2 < 2 ^ 64 := by
    intro row hrow
    obtain ⟨q, hq, rfl⟩ := List.getElem_of_mem hrow
    have hstate : d.row q = d.rows.toList[q] := by
      rw [Dfa.row, ← Array.getElem?_toList, List.getElem?_eq_getElem hq]
      rfl
    rw [← hstate]
    exact ⟨hd.row_ascending q, fun move hmove => (hd.target_lt q _ _ hmove).trans hsize⟩
  -- The rows stand in the order of their states, whatever the order of the moves within one.
  have hrows (h : (array (depth + 1) (d'.rows.toList.map (writeRow (depth + 2)))).length < bound) :
      Reads (list (readRow bound) bound)
        (array (depth + 1) (d'.rows.toList.map (writeRow (depth + 2)))) d.rows.toList := by
    obtain ⟨hlength, hperm⟩ := List.forall₂_iff_zip.mp hlists.rows
    refine reads_list (List.forall₂_map_left_iff.mpr
      (List.forall₂_iff_zip.mpr ⟨hlength, fun hmem hshort => ?_⟩)) h
    obtain ⟨hascending, htargets⟩ := hrow _ (List.of_mem_zip hmem).2
    exact reads_row hascending (hperm hmem) htargets hshort
  have halphabet (h : (array (depth + 1) (d'.alphabet.map fun c => quote [c])).length < bound) :
      Reads (list symbol bound) (array (depth + 1) (d'.alphabet.map fun c => quote [c]))
        d'.alphabet :=
    reads_list (List.forall₂_map_left_iff.mpr
      (List.forall₂_same.mpr fun c _ _ => reads_symbol c)) h
  have hstart : d'.start < 2 ^ 64 := hlists.start ▸ hd.start_lt.trans hsize
  have hmarks : d'.accepting.size < 2 ^ 64 := by rwa [hlists.accepting, hd.accepting_size]
  -- The four fields are read one after the other, and none is missing at the end.
  refine reads_record (e := { rows := some d.rows.toList, start := some d'.start,
                              accepting := some d'.accepting, alphabet := some d'.alphabet })
    ?_ (by simp) ?_ hbound
  · exact .enter rfl (fun h => (hrows h).map _) <|
      .enter rfl (fun _ => (reads_number hstart).map _) <|
      .enter rfl (fun h => (reads_marks d'.accepting hmarks h).map _) <|
      .enter rfl (fun h => (halphabet h).map _) .done
  · simp [required, hlists.start, hlists.accepting,
      ascending_of_perm hd.alphabet_ascending hlists.alphabet]

theorem reads_entry {l r : Nat} {c : Char} {w : Word} (hl : l < 2 ^ 64) (hr : r < 2 ^ 64)
    (hbound : (writeEntry depth ((l, c, r), w)).length < bound) :
    Reads (readEntry bound) (writeEntry depth ((l, c, r), w)) ((l, c, r), w) := by
  refine reads_record (e := { left := some l, symbol := some c, right := some r, output := some w })
    ?_ (by simp) ?_ hbound
  · exact .enter rfl (fun _ => (reads_number hl).map _) <|
      .enter rfl (fun _ => (reads_symbol c).map _) <|
      .enter rfl (fun _ => (reads_number hr).map _) <|
      .enter rfl (fun _ => (reads_text w).map _) .done
  · simp [required]

end Saved

/-! ### Bimachines -/

namespace Bimachine

open Json Saved

variable {b b' : Bimachine} {bound : Nat}

/-- The parts of a bimachine as they can be saved: the parts of its automata agree, all numbers
have 64 bits, and the table is in order. -/
structure Savable (b : Bimachine) : Prop where
  left : b.left.WellFormed
  right : b.right.WellFormed
  left_size : b.left.size < 2 ^ 64
  right_size : b.right.size < 2 ^ 64
  table : ∀ l c r w, ((l, c, r), w) ∈ b.table → l < 2 ^ 64 ∧ r < 2 ^ 64
  table_ascending : b.table.Pairwise fun a b => compare a.1 b.1 = .lt

/-- A bimachine is read back from a listing. -/
theorem reads_bimachine (hb : b.Savable) (hlists : b'.Lists b)
    (hbound : (writeBimachine b').length < bound) :
    Reads (readBimachine bound) (writeBimachine b') b := by
  have htable (h : (array 1 (b'.table.map (writeEntry 2))).length < bound) :
      Reads (list (readEntry bound) bound) (array 1 (b'.table.map (writeEntry 2))) b'.table := by
    refine reads_list (List.forall₂_map_left_iff.mpr (List.forall₂_same.mpr ?_)) h
    rintro ⟨⟨l, c, r⟩, w⟩ hentry hlength
    obtain ⟨hl, hr⟩ := hb.table l c r w (hlists.table ▸ hentry)
    exact reads_entry hl hr hlength
  refine reads_record (e := { left := some b.left, right := some b.right,
                              table := some (OutputTable.ofEntries b'.table) })
    ?_ (by simp) ?_ hbound
  · exact .enter rfl (fun h => (reads_dfa hb.left hb.left_size hlists.left h).map _) <|
      .enter rfl (fun h => (reads_dfa hb.right hb.right_size hlists.right h).map _) <|
      .enter rfl (fun h => (htable h).map _) .done
  · simp [required, hlists.table, OutputTable.ofEntries_of_ascending hb.table_ascending]

/-- A bimachine is loaded from the text of a listing. -/
theorem Savable.load_save (hb : b.Savable) (hlists : b'.Lists b) : load b'.save = .ok b := by
  have hnewline : Blank ['\n'] := by simp [Blank, isBlank]
  rw [load, save, String.toList_ofList]
  refine read_eq hnewline (reads_bimachine hb hlists ?_)
  rw [List.length_append]
  omega

end Bimachine

/-! ### Files -/

/-- A folder gives back what is written to it. -/
theorem Folder.readsBack (path : String) : FileStore.ReadsBack Folder path := by
  intro folder folder' text h
  obtain ⟨name, hname, hfolder⟩ := Option.bind_eq_some_iff.mp h
  obtain rfl := Option.some.inj hfolder
  show Folder.read? _ path = some text
  rw [read?, hname]
  exact Std.TreeMap.getElem?_insert_self

namespace CommandLine.Script

variable {α β γ σ : Type} [FileStore σ] {input path text : String} {o : Outcome σ} {folder : σ}
  {b b' : Bimachine}

theorem bind_assoc (x : Script α) (f : α → Script β) (g : β → Script γ) :
    (x >>= f) >>= g = x >>= fun a => f a >>= g := by
  induction x with
  | done a => rfl
  | exit code => rfl
  | print text next ih => exact congrArg (Script.print text) ih
  | note n next ih => exact congrArg (Script.note n) ih
  | readFile path next ih => exact congrArg (Script.readFile path) (funext ih)
  | writeFile path text next ih => exact congrArg (Script.writeFile path text) (funext ih)
  | readInput next ih => exact congrArg Script.readInput (funext ih)

theorem runFrom_saveFile {n : Note} (h : FileStore.write? o.folder path text = some folder)
    (f : Unit → Script Unit) : (saveFile path text n >>= f).runFrom input o =
      (f ()).runFrom input { o with notes := n :: o.notes, folder := folder } := by
  show runFrom input o (.writeFile path text fun written => Script.bind _ f) = _
  rw [runFrom, h]
  rfl

theorem runFrom_saveFile_of_none {n : Note} (h : FileStore.write? o.folder path text = none)
    (f : Unit → Script Unit) :
    (saveFile path text n >>= f).runFrom input o = { o with code := 1 } := by
  show runFrom input o (.writeFile path text fun written => Script.bind _ f) = _
  rw [runFrom, h]
  rfl

theorem runFrom_fileText (h : FileStore.read? o.folder path = some text)
    (f : String → Script Unit) :
    (fileText path >>= f).runFrom input o = (f text).runFrom input o := by
  show runFrom input o (.readFile path fun answer => Script.bind _ f) = _
  rw [runFrom, h]
  rfl

theorem runFrom_loadBimachine (h : FileStore.read? o.folder path = some text)
    (hload : Bimachine.load text = .ok b) (f : Bimachine → Script Unit) :
    (loadBimachine path >>= f).runFrom input o = (f b).runFrom input o := by
  rw [loadBimachine, bind_assoc, runFrom_fileText h, hload]
  rfl

/-- A bimachine that is saved to a file and loaded from it is the same again: the automata that
operations obtain and the table of any entries are, in whatever order the moves and symbols are
written.  The file is any path of any store that takes the text and gives back what it takes.  The
numbers are states, which have 64 bits. -/
theorem loadBimachine_saveBimachine {left right : Dfa}
    {entries : List ((Nat × Char × Nat) × Word)}
    (hleft : Obtained (.dfa left)) (hright : Obtained (.dfa right))
    (hleftSize : left.size < 2 ^ 64) (hrightSize : right.size < 2 ^ 64)
    (hentries : ∀ l c r w, ((l, c, r), w) ∈ entries → l < 2 ^ 64 ∧ r < 2 ^ 64)
    (hb : b = { left := left, right := right, table := .ofEntries entries })
    (hlists : b'.Lists b) (hback : FileStore.ReadsBack σ path)
    (hwritten : FileStore.write? o.folder path b'.save = some folder) (input : String) :
    ∃ loaded,
      (∀ f : Bimachine → Script Unit,
        (do saveBimachine path b'; f (← loadBimachine path)).runFrom input o =
          (f loaded).runFrom input
            { o with notes := .bimachineSaved path :: o.notes, folder := folder }) ∧
      loaded.left = left ∧ loaded.right = right ∧ loaded.table = .ofEntries entries ∧
      ∀ w, loaded.process w = b.process w := by
  -- What operations obtain is well-formed, and the entries of a table ascend once entered.
  have hsavable : b.Savable := by
    subst hb
    exact {
      left := wellFormed_of_obtained hleft
      right := wellFormed_of_obtained hright
      left_size := hleftSize
      right_size := hrightSize
      table := fun l c r w h => hentries l c r w (OutputTable.mem_of_mem_ofEntries h)
      table_ascending := OutputTable.ofEntries_ascending }
  refine ⟨b, fun f => ?_, hb ▸ rfl, hb ▸ rfl, hb ▸ rfl, fun _ => rfl⟩
  have hread := hback hwritten
  rw [saveBimachine, runFrom_saveFile hwritten]
  exact runFrom_loadBimachine hread (hsavable.load_save hlists) f

/-- An automaton with two moves of one state, on symbols that need care in a text. -/
def forked : Dfa := .ofRows #[[('"', 1), ('\u00e9', 0)], []] 0 #[false, true]

theorem obtained_forked : Obtained (.dfa forked) :=
  Dfa.obtained_of_declare
    (by decide : Dfa.declare 2 0 [1] [(0, '\u00e9', 0), (0, '"', 1)] = .ok forked)

/-- The automaton with its moves and symbols in descending order. -/
def forkedBackwards : Dfa :=
  { forked with rows := #[[('\u00e9', 0), ('"', 1)], []], alphabet := ['\u00e9', '"'] }

theorem lists_forkedBackwards : forkedBackwards.Lists forked where
  rows := .cons (List.Perm.swap _ _ _) (.cons (List.Perm.refl _) .nil)
  start := rfl
  accepting := rfl
  alphabet := List.Perm.swap _ _ _

/-- A table with numbers that are no states. -/
def strayEntries : List ((Nat × Char × Nat) × Word) :=
  [((7, '\n', 2 ^ 64 - 1), ['"', '\x00']), ((0, '"', 1), [])]

theorem loadBimachine_saveBimachine_forked :
    ∃ folder loaded, ({} : Folder).write? "b.json" (Bimachine.save
        { left := forkedBackwards, right := forked, table := .ofEntries strayEntries }) =
          some folder ∧
      (∀ f : Bimachine → Script Unit,
        (do saveBimachine "b.json"
              { left := forkedBackwards, right := forked, table := .ofEntries strayEntries }
            f (← loadBimachine "b.json")).runFrom "" { folder := {} } =
          (f loaded).runFrom "" { notes := [.bimachineSaved "b.json"], folder := folder }) ∧
      loaded.left = forked ∧ loaded.right = forked ∧
      loaded.table = .ofEntries strayEntries := by
  have hentry : Folder.entry? "b.json" = some "b.json" := by decide
  -- Any text can be written there; it is not computed.
  have hwritten (text : String) : ({} : Folder).write? "b.json" text =
      some { files := ({} : Folder).files.insert "b.json" text } := by
    rw [Folder.write?, hentry]
    rfl
  have hentries : ∀ l c r w, ((l, c, r), w) ∈ strayEntries → l < 2 ^ 64 ∧ r < 2 ^ 64 := by
    intro l c r w h
    simp only [strayEntries, List.mem_cons, List.not_mem_nil, or_false, Prod.mk.injEq] at h
    omega
  have hlists : Bimachine.Lists
      { left := forkedBackwards, right := forked, table := .ofEntries strayEntries }
      { left := forked, right := forked, table := .ofEntries strayEntries } :=
    { left := lists_forkedBackwards, right := .refl forked, table := rfl }
  obtain ⟨loaded, hrun, hleft, hright, htable, _⟩ := loadBimachine_saveBimachine
    (o := { folder := {} }) obtained_forked obtained_forked (by decide) (by decide) hentries rfl
    hlists (Folder.readsBack "b.json") (hwritten _) ""
  exact ⟨_, loaded, hwritten _, hrun, hleft, hright, htable⟩

end CommandLine.Script

end Transduction
