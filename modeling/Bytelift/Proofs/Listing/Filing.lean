import Bytelift.Listing.Read
import Bytelift.Proofs.Run
import Bytelift.Proofs.Table

/-! Reading and filing. A reader never looks at the functions that are filed, so that it may as well keep a
record of what it files. Reading with a record and reading with the catalogue go through the same steps, and the
record, gone through once more, makes the catalogue. No step makes more lines come than there were. -/

namespace Bytelift

namespace Run

variable {σ τ α : Type}

def outcome (act : Run σ α) (s : σ) : Except Fault α :=
  match act s with
  | .ok a _ => .ok a
  | .error fault _ => .error fault

def viewed (view : σ → τ) : EStateM.Result Fault σ α → EStateM.Result Fault τ α
  | .ok a s => .ok a (view s)
  | .error fault s => .error fault (view s)

theorem outcome_of_viewed {act : Run σ α} {other : Run τ α} {view : τ → σ} {s : σ} {t : τ}
    (h : act s = viewed view (other t)) : outcome act s = outcome other t := by
  unfold outcome
  rw [h]
  cases other t <;> rfl

theorem final_of_viewed {act : Run σ α} {other : Run τ α} {view : τ → σ} {s : σ} {t : τ}
    (h : act s = viewed view (other t)) : final act s = view (final other t) := by
  unfold final
  rw [h]
  cases other t <;> rfl

end Run

namespace Listing

open Run Instruction Text

/-- How often a line, or the end of the listing, can still come. -/
def Feed.supply (feed : Feed) : Nat :=
  2 * feed.rest.length + (if feed.last.isSome then 1 else 0) + (if feed.ended then 0 else 1)

/-- The feed with another table in the place of its functions. -/
def Feed.refiled (view : Functions → Functions) (feed : Feed) : Feed :=
  { feed with catalogue := { feed.catalogue with functions := view feed.catalogue.functions } }

namespace FeedM

/-- Notes a function at the end of the record, whatever its name. -/
def noteDown (f : Function) : FeedM Unit :=
  modify fun s => s.refiled fun record => ⟨record.entries ++ [(f.name, f)]⟩

/-! ## Readers side by side -/

/-- The first reader does on the viewed table what the second does on the record, and the second makes no lines
come again that could not come before. -/
structure Mirrors {α : Type} (view : Functions → Functions) (act other : FeedM α) : Prop where
  same : ∀ feed : Feed, act (feed.refiled view) = viewed (Feed.refiled view) (other feed)
  spends : ∀ feed : Feed, (final other feed).supply ≤ feed.supply

section Steps

variable {α β : Type} {view : Functions → Functions}

theorem mirrors_pure (a : α) : Mirrors view (pure a) (pure a) := ⟨fun _ => rfl, fun _ => Nat.le_refl _⟩

theorem mirrors_throw (fault : Fault) : Mirrors view (throw fault : FeedM α) (throw fault) :=
  ⟨fun _ => rfl, fun _ => Nat.le_refl _⟩

theorem mirrors_need (fault : Fault) (found : Option α) : Mirrors view (need fault found) (need fault found) := by
  cases found with
  | none => exact mirrors_throw fault
  | some a => exact mirrors_pure a

theorem mirrors_ofExcept (answer : Except Fault α) : Mirrors view (Run.ofExcept answer) (Run.ofExcept answer) := by
  cases answer with
  | error fault => exact mirrors_throw fault
  | ok a => exact mirrors_pure a

theorem mirrors_bind {act other : FeedM α} {f g : α → FeedM β} (h : Mirrors view act other)
    (hf : ∀ a, Mirrors view (f a) (g a)) : Mirrors view (act >>= f) (other >>= g) where
  same feed := by
    have hact := h.same feed
    cases hother : other feed with
    | ok a t =>
      rw [hother] at hact
      rw [bind_of_ok hact, bind_of_ok hother]
      exact (hf a).same t
    | error fault t =>
      rw [hother] at hact
      rw [bind_of_error hact, bind_of_error hother]
      rfl
  spends feed := by
    have hfirst := h.spends feed
    cases hother : other feed with
    | ok a t =>
      have hboth : final (other >>= g) feed = final (g a) t := by
        unfold final
        rw [bind_of_ok hother]
      rw [final_of_ok hother] at hfirst
      rw [hboth]
      exact Nat.le_trans ((hf a).spends t) hfirst
    | error fault t =>
      rw [final_of_error hother] at hfirst
      rw [final_of_error (bind_of_error hother)]
      exact hfirst

/-- What a reader learns from the feed does not depend on what is filed. -/
theorem mirrors_get {f g : Feed → FeedM α} (h : ∀ feed, Mirrors view (f (feed.refiled view)) (g feed)) :
    Mirrors view (get >>= f) (get >>= g) :=
  ⟨fun feed => (h feed).same feed, fun feed => (h feed).spends feed⟩

theorem mirrors_setAgain (again : Bool) : Mirrors view (setAgain again) (setAgain again) :=
  ⟨fun _ => rfl, fun _ => Nat.le_refl _⟩

/-- Each line that comes is one less to come. -/
theorem supply_next {feed t : Feed} {found : Option String} (h : next feed = .ok found t) :
    t.supply < feed.supply := by
  unfold Feed.supply
  unfold next at h
  split at h
  · next hlast _ =>
    cases h
    simp [hlast]
  · next hrest _ =>
    cases h
    simp only [hrest, List.length_cons, Option.isSome_some, if_true]
    split <;> omega
  · split at h
    · cases h
    · next hended =>
      cases h
      simp only [hended, Option.isSome_none, Bool.false_eq_true, if_false, if_true]
      omega

theorem mirrors_next : Mirrors view next next where
  same feed := by
    rcases feed with ⟨_ | ⟨line, rest⟩, _ | last, _ | _, ⟨functions, _ | _⟩⟩ <;> rfl
  spends feed := by
    cases hnext : next feed with
    | ok found t =>
      rw [final_of_ok hnext]
      exact Nat.le_of_lt (supply_next hnext)
    | error fault t =>
      rw [final_of_error hnext]
      unfold next at hnext
      split at hnext
      · cases hnext
      · cases hnext
      · split at hnext
        · cases hnext
          exact Nat.le_refl _
        · cases hnext

theorem mirrors_ite {c : Prop} [Decidable c] {act act' other other' : FeedM α} (h : Mirrors view act other)
    (h' : Mirrors view act' other') : Mirrors view (if c then act else act') (if c then other else other') := by
  split
  · exact h
  · exact h'

end Steps

/-! ## Lines -/

section Readers

variable {fit : Matcher} {view : Functions → Functions}

theorem mirrors_line (fault : Fault) : Mirrors view (line fault) (line fault) :=
  mirrors_bind mirrors_next (mirrors_need _)

theorem mirrors_seek (test : String → Bool) (fault : Fault) (bound : Nat) :
    Mirrors view (seek test fault bound) (seek test fault bound) := by
  induction bound with
  | zero => exact mirrors_throw _
  | succ bound ih =>
    unfold seek
    refine mirrors_bind mirrors_next fun found => mirrors_bind (mirrors_need _ _) fun line => ?_
    exact mirrors_ite (mirrors_pure _) ih

theorem mirrors_lineSuchThat (test : String → Bool) (fault : Fault) :
    Mirrors view (lineSuchThat test fault) (lineSuchThat test fault) := mirrors_get fun _ => mirrors_seek test fault _

theorem mirrors_seekStart (bound : Nat) : Mirrors view (seekStart bound) (seekStart bound) := by
  induction bound with
  | zero => exact mirrors_throw _
  | succ bound ih =>
    unfold seekStart
    refine mirrors_bind mirrors_next fun found => ?_
    exact mirrors_ite (mirrors_pure _) ih

theorem mirrors_expectStart (what : String) : Mirrors view (expectStart what) (expectStart what) := by
  unfold expectStart
  refine mirrors_bind (mirrors_line _) fun line => ?_
  exact mirrors_ite (mirrors_throw _) (mirrors_pure _)

theorem mirrors_skipToEnd : Mirrors view skipToEnd skipToEnd :=
  mirrors_bind (mirrors_lineSuchThat _ _) fun _ => mirrors_pure _

theorem mirrors_handlersFrom (bound : Nat) (handlers : Handlers) :
    Mirrors view (handlersFrom fit bound handlers) (handlersFrom fit bound handlers) := by
  induction bound generalizing handlers with
  | zero => exact mirrors_throw _
  | succ bound ih =>
    unfold handlersFrom
    refine mirrors_bind (mirrors_line _) fun line => mirrors_ite ?_ ?_
    · exact mirrors_bind (mirrors_ofExcept _) fun _ => ih _
    · exact mirrors_bind (mirrors_setAgain _) fun _ => mirrors_pure _

theorem mirrors_handlerTable (line : String) : Mirrors view (handlerTable fit line) (handlerTable fit line) := by
  unfold handlerTable
  refine mirrors_ite (mirrors_pure _) (mirrors_bind mirrors_next fun _ => ?_)
  exact mirrors_get fun _ => mirrors_handlersFrom _ _

theorem mirrors_instructionsFrom (bound : Nat) (current : String) :
    Mirrors view (instructionsFrom bound current) (instructionsFrom bound current) := by
  induction bound generalizing current with
  | zero => exact mirrors_throw _
  | succ bound ih =>
    unfold instructionsFrom
    refine mirrors_ite (mirrors_bind (mirrors_ofExcept _) fun first => ?_) ?_
    · exact mirrors_bind (mirrors_line _) fun line => mirrors_bind (ih line) fun rest => mirrors_pure _
    · exact mirrors_bind (mirrors_setAgain _) fun _ => mirrors_pure _

theorem mirrors_instructions (first : String) : Mirrors view (instructions first) (instructions first) :=
  mirrors_get fun _ => mirrors_instructionsFrom _ first

/-! ## Entries and functions -/

section Entries

variable {entry other : FeedM (Int × String)}

theorem mirrors_fill (h : Mirrors view entry other) (left : Nat) (index nextIndex : Int) (text : String) :
    Mirrors view (fill entry left index nextIndex text) (fill other left index nextIndex text) := by
  induction left generalizing index nextIndex text with
  | zero => exact mirrors_pure _
  | succ left ih =>
    unfold fill
    refine mirrors_ite (mirrors_bind (ih _ _ _) fun rest => mirrors_pure _) ?_
    exact mirrors_bind h fun found => mirrors_bind (ih _ _ _) fun rest => mirrors_pure _

theorem mirrors_entries (h : Mirrors view entry other) : Mirrors view (entries fit entry) (entries fit other) := by
  unfold entries
  refine mirrors_bind (mirrors_lineSuchThat _ _) fun header => ?_
  refine mirrors_bind (mirrors_ofExcept _) fun count => ?_
  refine mirrors_ite (mirrors_pure _) (mirrors_bind (mirrors_lineSuchThat _ _) fun _ => ?_)
  exact mirrors_bind (mirrors_setAgain _) fun _ => mirrors_fill h _ _ _ _

theorem mirrors_array (h : Mirrors view entry other) : Mirrors view (array fit entry) (array fit other) := by
  unfold array
  refine mirrors_bind (mirrors_expectStart _) fun _ => mirrors_bind (mirrors_entries h) fun items => ?_
  refine mirrors_bind mirrors_skipToEnd fun _ => mirrors_bind mirrors_next fun found => ?_
  exact mirrors_ite (mirrors_bind (mirrors_setAgain _) fun _ => mirrors_pure _) (mirrors_pure _)

theorem mirrors_object (h : Mirrors view entry other) : Mirrors view (object fit entry) (object fit other) := by
  unfold object
  refine mirrors_bind (mirrors_expectStart _) fun _ => mirrors_bind (mirrors_entries h) fun items => ?_
  exact mirrors_bind mirrors_skipToEnd fun _ => mirrors_pure _

theorem mirrors_constantPool (h : Mirrors view entry other) (line : String) :
    Mirrors view (constantPool fit entry line) (constantPool fit other line) :=
  mirrors_ite (mirrors_pure _) (mirrors_entries h)

end Entries

section Functions

variable (fit) {entry other : Entry}

theorem mirrors_functionLine (h : ∀ declarer, Mirrors view (entry declarer) (other declarer)) (label : String)
    (f : Function) (line : String) :
    Mirrors view (functionLine fit entry label f line) (functionLine fit other label f line) := by
  unfold functionLine
  refine mirrors_ite (mirrors_bind (mirrors_ofExcept _) fun _ => mirrors_pure _) ?_
  refine mirrors_ite (mirrors_bind (mirrors_ofExcept _) fun _ => mirrors_pure _) ?_
  refine mirrors_ite (mirrors_bind (mirrors_constantPool (h _) _) fun _ => mirrors_pure _) ?_
  refine mirrors_ite (mirrors_bind (mirrors_handlerTable _) fun _ => mirrors_pure _) ?_
  refine mirrors_ite (mirrors_bind (mirrors_instructions _) fun _ => mirrors_pure _) ?_
  exact mirrors_ite (mirrors_bind (mirrors_ofExcept _) fun _ => mirrors_pure _) (mirrors_pure _)

theorem mirrors_functionLines (h : ∀ declarer, Mirrors view (entry declarer) (other declarer)) (label : String)
    (bound : Nat) (f : Function) :
    Mirrors view (functionLines fit entry label bound f) (functionLines fit other label bound f) := by
  induction bound generalizing f with
  | zero => exact mirrors_throw _
  | succ bound ih =>
    unfold functionLines
    refine mirrors_bind mirrors_next fun found => ?_
    cases found with
    | none => exact mirrors_pure _
    | some line =>
      exact mirrors_ite (mirrors_pure _) (mirrors_bind (mirrors_functionLine fit h label f line) fun g => ih g)

variable {file file' : Function → FeedM Unit}

theorem mirrors_function (hfile : ∀ f, Mirrors view (file f) (file' f))
    (h : ∀ declarer, Mirrors view (entry declarer) (other declarer)) (label : String) (declarer : Option String) :
    Mirrors view (function fit file entry label declarer) (function fit file' other label declarer) := by
  unfold function
  refine mirrors_get fun feed => mirrors_bind (mirrors_functionLines fit h _ _ _) fun f => ?_
  refine mirrors_bind (hfile f) fun _ => ?_
  exact mirrors_ite (mirrors_pure _) (mirrors_throw _)

theorem mirrors_entryWithin (hfile : ∀ f, Mirrors view (file f) (file' f)) (bound : Nat)
    (declarer : Option String) :
    Mirrors view (entryWithin fit file bound declarer) (entryWithin fit file' bound declarer) := by
  induction bound generalizing declarer with
  | zero => exact mirrors_throw _
  | succ bound ih =>
    unfold entryWithin
    refine mirrors_bind (mirrors_line _) fun line => mirrors_bind (mirrors_ofExcept _) fun found => ?_
    obtain ⟨nextIndex, constant⟩ := found
    cases constant with
    | value text => exact mirrors_pure _
    | function label => exact mirrors_bind (mirrors_function fit hfile ih label declarer) fun _ => mirrors_pure _
    | array => exact mirrors_bind (mirrors_array (ih declarer)) fun _ => mirrors_pure _
    | object => exact mirrors_bind (mirrors_object (ih declarer)) fun _ => mirrors_pure _

theorem mirrors_entry (hfile : ∀ f, Mirrors view (file f) (file' f)) (declarer : Option String) :
    Mirrors view (FeedM.entry fit file declarer) (FeedM.entry fit file' declarer) :=
  mirrors_get fun _ => mirrors_entryWithin fit hfile _ declarer

theorem mirrors_listing (hfile : ∀ f, Mirrors view (file f) (file' f)) :
    Mirrors view (listing fit file) (listing fit file') := by
  refine mirrors_get fun feed => mirrors_bind (mirrors_seekStart _) fun _ => ?_
  exact mirrors_bind (mirrors_function fit hfile (mirrors_entry fit hfile) _ _) fun _ => mirrors_pure _

end Functions

end Readers

/-! ## The record and the catalogue -/

/-- The functions of a record, filed one after the other among those that are there. -/
def filed (functions record : Functions) : Functions := functions.putAll record.entries

/-- The record goes on from what it held before. -/
def continued (functions record : Functions) : Functions := ⟨functions.entries ++ record.entries⟩

theorem mirrors_register (functions : Functions) (f : Function) :
    Mirrors (filed functions) (register f) (noteDown f) where
  same feed := by
    have hput : filed functions ⟨feed.catalogue.functions.entries ++ [(f.name, f)]⟩ =
        (filed functions feed.catalogue.functions).put f.name f := by
      unfold filed Table.putAll
      rw [List.foldl_append]
      rfl
    change EStateM.Result.ok () _ = EStateM.Result.ok () _
    unfold Feed.refiled
    rw [hput]
  spends _ := Nat.le_refl _

theorem mirrors_noteDown (functions : Functions) (f : Function) :
    Mirrors (continued functions) (noteDown f) (noteDown f) where
  same feed := by
    have hnote : continued functions ⟨feed.catalogue.functions.entries ++ [(f.name, f)]⟩ =
        ⟨(continued functions feed.catalogue.functions).entries ++ [(f.name, f)]⟩ := by
      unfold continued
      rw [List.append_assoc]
    change EStateM.Result.ok () _ = EStateM.Result.ok () _
    unfold Feed.refiled
    rw [hnote]
  spends _ := Nat.le_refl _

end FeedM

end Listing

end Bytelift
