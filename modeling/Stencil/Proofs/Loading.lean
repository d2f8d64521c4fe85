/-
# `Stencil.Proofs.Loading` — a JSON object makes a context

A context can be read from a file.  The reader of JSON texts makes host values of few kinds only:
words, numbers and strings, lists of such values, and mappings from texts to such values
(`HostValue.IsData`).  It keeps what it has read so far in frames, and the claim is carried
through them: a stack of frames that hold such values is completed to such a value
(`Json.isData_readValue`).

All of these values convert, as far as the host has room.  So nothing but deep nesting can go wrong
between a JSON object and the context that it makes (`Context.exists_ofFile`).
-/
import Stencil.Cli.Report
import Stencil.Proofs.Rearranging

namespace Stencil

/-! ## Values without anything of the host -/

namespace HostValue

/-- A value that JSON texts spell: a word, a number, a string, a list of such values, or a
mapping from texts to them. -/
inductive IsData : HostValue → Prop where
  | absent : IsData .absent
  | bool (b : Bool) : IsData (.bool b)
  | int (i : Int) : IsData (.int i)
  | float (x : Binary64) : IsData (.float x)
  | text (t : Text) : IsData (.text t)
  | list {items : List HostValue} (h : ∀ w ∈ items, IsData w) : IsData (.list items)
  | mapping {entries : List (HostKey × HostValue)} (hkeys : ∀ e ∈ entries, ∃ name, e.1 = .text name)
      (h : ∀ e ∈ entries, IsData e.2) : IsData (.mapping entries)

variable {room : Nat}

/-- Entries are stored if their keys are texts and their values convert. -/
theorem exists_storeEntriesIn {entries : List (HostKey × HostValue)}
    (hkeys : ∀ e ∈ entries, ∃ name, e.1 = .text name)
    (h : ∀ e ∈ entries, ∃ v, e.2.convertIn room = .ok v) (object : Table Text Value) :
    ∃ table, storeEntriesIn room object entries = .ok table := by
  induction entries generalizing object with
  | nil => exact ⟨object, by rw [storeEntriesIn]⟩
  | cons e entries ih =>
      obtain ⟨key, value⟩ := e
      obtain ⟨name, rfl⟩ := hkeys _ List.mem_cons_self
      obtain ⟨v, hv⟩ := h _ List.mem_cons_self
      have hrest := ih (fun e he => hkeys e (List.mem_cons_of_mem _ he))
        fun e he => h e (List.mem_cons_of_mem _ he)
      cases habsent : value.isAbsent with
      | true =>
          obtain ⟨table, htable⟩ := hrest (object.erase name)
          refine ⟨table, ?_⟩
          simp only [storeEntriesIn, HostKey.toText, Bind.bind, Except.bind, habsent, if_true]
          exact htable
      | false =>
          obtain ⟨table, htable⟩ := hrest (object.insert name v)
          refine ⟨table, ?_⟩
          simp only [storeEntriesIn, HostKey.toText, Bind.bind, Except.bind, habsent, hv,
            Bool.false_eq_true, if_false]
          exact htable

/-- Such values convert where there is room, from their parts to the whole. -/
theorem IsData.exists_convertIn {w : HostValue} (h : w.IsData) : ∀ {room : Nat},
    containerCalls * w.depth ≤ room → ∃ v, w.convertIn room = .ok v := by
  induction h with
  | absent | bool | int | float | text => exact fun _ => ⟨_, by rw [convertIn]⟩
  | list _ ih =>
      intro room hroom
      obtain ⟨hcalls, hleft⟩ := room_for_parts (depth.eq_def _ ▸ hroom)
      obtain ⟨values, hvalues⟩ := exists_forall₂ fun w hw =>
        ih w hw (hleft _ (depth_le_of_mem_items w hw))
      exact ⟨.sequence values, convertIn_list_eq_ok.2 ⟨hcalls, values, hvalues, rfl⟩⟩
  | mapping hkeys _ ih =>
      intro room hroom
      obtain ⟨hcalls, hleft⟩ := room_for_parts (depth.eq_def _ ▸ hroom)
      obtain ⟨table, htable⟩ := exists_storeEntriesIn hkeys
        (fun e he => ih e he (hleft _ (depth_le_of_mem_entries e he))) []
      exact ⟨.object table, convertIn_mapping_eq_ok.2 ⟨hcalls, table, htable, rfl⟩⟩

end HostValue

/-! ## What JSON texts are read as -/

namespace Json

/-- Entries under texts, of values that JSON texts spell. -/
def AreEntries (entries : List (HostKey × HostValue)) : Prop :=
  (∀ e ∈ entries, ∃ name, e.1 = .text name) ∧ ∀ e ∈ entries, e.2.IsData

/-- What has been read of a container. -/
def Frame.IsData : Frame → Prop
  | .array items => ∀ w ∈ items, w.IsData
  | .object entries _ => AreEntries entries

theorem AreEntries.cons {entries : List (HostKey × HostValue)} (h : AreEntries entries)
    (key : Text) {v : HostValue} (hv : v.IsData) : AreEntries ((.text key, v) :: entries) :=
  ⟨List.forall_mem_cons.2 ⟨⟨key, rfl⟩, h.1⟩, List.forall_mem_cons.2 ⟨hv, h.2⟩⟩

theorem mem_of_mem_ofPairs {κ α : Type} [DecidableEq κ] {pairs : List (κ × α)} {e : κ × α}
    (h : e ∈ Table.ofPairs pairs) : e ∈ pairs := by
  suffices hfold : ∀ t : Table κ α, e ∈ pairs.foldl (fun t p => t.insert p.1 p.2) t →
      e ∈ t ∨ e ∈ pairs from (hfold [] h).resolve_left List.not_mem_nil
  clear h
  induction pairs with
  | nil => exact fun t h => .inl h
  | cons p pairs ih =>
      intro t h
      rcases ih _ h with h | h
      · rcases Table.mem_of_mem_insert h with rfl | h
        · exact .inr List.mem_cons_self
        · exact .inl h
      · exact .inr (List.mem_cons_of_mem _ h)

theorem AreEntries.isData {entries : List (HostKey × HostValue)} (h : AreEntries entries) :
    (HostValue.ofEntries entries.reverse).IsData := by
  have hmem : ∀ e ∈ Table.ofPairs entries.reverse, e ∈ entries := fun e he =>
    List.mem_reverse.1 (mem_of_mem_ofPairs he)
  exact .mapping (fun e he => h.1 e (hmem e he)) fun e he => h.2 e (hmem e he)

theorem isData_readNumber {cs : List Char} {v : HostValue} {count : Nat}
    (h : readNumber cs = .ok (v, count)) : v.IsData := by
  simp only [readNumber] at h
  repeat' split at h
  all_goals cases h
  all_goals first | exact .int _ | exact .float _

theorem isData_readScalar {cs : List Char} {v : HostValue} {count : Nat}
    (h : readScalar cs = .ok (v, count)) : v.IsData := by
  unfold readScalar at h
  split at h
  next word v hfind =>
    cases h
    have hword := List.mem_of_find?_eq_some hfind
    simp only [words, List.mem_cons, Prod.mk.injEq, List.not_mem_nil, or_false] at hword
    rcases hword with ⟨-, rfl⟩ | ⟨-, rfl⟩ | ⟨-, rfl⟩ | ⟨-, rfl⟩ | ⟨-, rfl⟩ | ⟨-, rfl⟩
    · exact .absent
    · exact .bool true
    · exact .bool false
    all_goals exact .float _
  next => exact isData_readNumber h

/-- On frames that hold values which JSON texts spell, such a value is what comes out. -/
def GivesData (stack : List Frame) (x : Except Stop (HostValue × List Char)) : Prop :=
  (∀ frame ∈ stack, frame.IsData) → ∀ v rest, x = .ok (v, rest) → v.IsData

namespace GivesData

variable {stack : List Frame} {frame : Frame} {x : Except Stop (HostValue × List Char)}

theorem error (stop : Stop) : GivesData stack (.error stop) := nofun

theorem pop (h : GivesData (frame :: stack) x) (hframe : frame.IsData) : GivesData stack x :=
  fun hstack => h (List.forall_mem_cons.2 ⟨hframe, hstack⟩)

theorem push (h : frame.IsData → GivesData stack x) : GivesData (frame :: stack) x := by
  intro hstack
  obtain ⟨hframe, hstack⟩ := List.forall_mem_cons.1 hstack
  exact h hframe hstack

end GivesData

/-- The functions of the reader, each on this text. -/
structure GivesDataOn (cs : List Char) : Prop where
  value : ∀ stack, GivesData stack (readValue stack cs)
  member : ∀ stack entries, AreEntries entries → GivesData stack (readMember stack entries cs)
  complete : ∀ stack v, v.IsData → GivesData stack (complete stack v cs)

section Shorter

variable {cs : List Char} (ih : ∀ rest : List Char, rest.length < cs.length → GivesDataOn rest)

include ih

theorem givesData_member {stack : List Frame} {entries : List (HostKey × HostValue)}
    (h : AreEntries entries) : GivesData stack (readMember stack entries cs) := by
  unfold readMember
  split
  next rest =>
    split
    · exact .error _
    next key afterKey hread =>
      split
      next rest hblanks =>
        refine ((ih _ ?_).value (.object entries key :: stack)).pop h
        have h₁ := length_readString_lt hread
        have h₂ := length_lt_of_skipBlanks hblanks
        have h₃ := length_skipBlanks_le rest
        rw [List.length_cons]
        omega
      · exact .error _
  · exact .error _

theorem givesData_complete {stack : List Frame} {v : HostValue} (hv : v.IsData) :
    GivesData stack (complete stack v cs) := by
  unfold complete
  split
  · rintro - _ _ ⟨⟩
    exact hv
  next items stack =>
    refine .push fun (hitems : ∀ w ∈ items, w.IsData) => ?_
    have hall : ∀ w ∈ v :: items, w.IsData := List.forall_mem_cons.2 ⟨hv, hitems⟩
    split
    next rest hblanks =>
      exact (ih _ (length_lt_of_skipBlanks hblanks)).complete stack _
        (.list fun w hw => hall w (List.mem_reverse.1 hw))
    next rest hblanks =>
      refine ((ih _ ?_).value (.array (v :: items) :: stack)).pop hall
      exact Nat.lt_of_le_of_lt (length_skipBlanks_le rest) (length_lt_of_skipBlanks hblanks)
    · exact .error _
  next entries key stack =>
    refine .push fun (hentries : AreEntries entries) => ?_
    have hall := hentries.cons key hv
    split
    next rest hblanks =>
      exact (ih _ (length_lt_of_skipBlanks hblanks)).complete stack _ hall.isData
    next rest hblanks =>
      refine (ih _ ?_).member stack _ hall
      exact Nat.lt_of_le_of_lt (length_skipBlanks_le rest) (length_lt_of_skipBlanks hblanks)
    · exact .error _

theorem givesData_value (stack : List Frame) : GivesData stack (readValue stack cs) := by
  unfold readValue
  split
  · exact .error _
  next rest =>
    split
    · exact .error _
    next s after hread =>
      exact (ih after (Nat.lt_succ_of_lt (length_readString_lt hread))).complete stack _ (.text _)
  next tail =>
    split
    · exact .error _
    split
    next rest hblanks =>
      exact (ih rest (Nat.lt_succ_of_lt (length_lt_of_skipBlanks hblanks))).complete stack _
        (.mapping (List.forall_mem_nil _) (List.forall_mem_nil _))
    · exact (ih _ (Nat.lt_succ_of_le (length_skipBlanks_le tail))).member stack []
        ⟨List.forall_mem_nil _, List.forall_mem_nil _⟩
  next tail =>
    split
    · exact .error _
    split
    next rest hblanks =>
      exact (ih rest (Nat.lt_succ_of_lt (length_lt_of_skipBlanks hblanks))).complete stack _
        (.list (List.forall_mem_nil _))
    · exact ((ih _ (Nat.lt_succ_of_le (length_skipBlanks_le tail))).value _).pop
        (List.forall_mem_nil _)
  next c rest _ _ _ =>
    split
    · exact .error _
    next v count hread =>
      have hv := isData_readScalar hread
      -- A word or a number of no characters would leave the text as it is.
      cases count with
      | zero => exact givesData_complete ih hv
      | succ count =>
          refine (ih _ ?_).complete stack v hv
          rw [List.drop_succ_cons, List.length_drop, List.length_cons]
          omega

end Shorter

/-- One induction on how much text is left carries the three functions at once. -/
theorem givesDataOn (cs : List Char) : GivesDataOn cs := by
  induction hlength : cs.length using Nat.strongRecOn generalizing cs with
  | ind n ih =>
      have hshorter : ∀ rest : List Char, rest.length < cs.length → GivesDataOn rest :=
        fun rest hless => ih _ (hlength ▸ hless) rest rfl
      exact ⟨givesData_value hshorter, fun _ _ => givesData_member hshorter,
        fun _ _ => givesData_complete hshorter⟩

/-- What is read of a JSON text is a value that JSON texts spell. -/
theorem isData_read {text : List Char} {v : HostValue} (h : read text = .ok v) : v.IsData := by
  unfold read at h
  split at h
  · cases h
  split at h
  · cases h
  · cases h
  · cases h
  next w rest hread =>
    dsimp only at h
    split at h <;> cases h
    exact (givesDataOn _).value [] (List.forall_mem_nil _) v rest hread

end Json

/-! ## Contexts from files -/

/-- The file at a location holds a JSON object with these entries, and they are not nested deeper
than the host has room for. -/
def Disk.HoldsObject (disk : Disk) (location : String) (entries : List (HostKey × HostValue)) :
    Prop :=
  (∃ data text, disk.read location = .ok data ∧ Charset.utf8.decode data = .ok text ∧
    Json.read (lineFeedsOnly text.toList) = .ok (.mapping entries)) ∧
  (HostValue.mapping entries).depth ≤ HostValue.maxDepth

/-- A file that holds a JSON object makes a context: that of its entries. -/
theorem Context.exists_ofFile {disk : Disk} {location : String}
    {entries : List (HostKey × HostValue)} (h : disk.HoldsObject location entries) :
    ∃ context, Context.ofHost (.mapping entries) = .ok context ∧
      Context.ofFile disk location = .ok context := by
  obtain ⟨⟨data, text, hdata, htext, hread⟩, hdepth⟩ := h
  obtain ⟨table, htable⟩ : ∃ table, HostValue.storeEntries [] entries = .ok table := by
    obtain ⟨v, hv⟩ := (Json.isData_read hread).exists_convertIn
      (HostValue.calls_le_of_le_maxDepth hdepth)
    obtain ⟨-, table, htable, -⟩ := HostValue.convertIn_mapping_eq_ok.1 hv
    exact ⟨table, htable⟩
  have hhost : Context.ofHost (.mapping entries) = .ok (.ofTable table) := by
    simp only [Context.ofHost, HostValue.bindings, HostValue.opened, htable, Except.map]
  refine ⟨.ofTable table, hhost, ?_⟩
  simp only [Context.ofFile, hdata, htext, hread, hhost, Except.mapError, Bind.bind, Except.bind]

end Stencil
