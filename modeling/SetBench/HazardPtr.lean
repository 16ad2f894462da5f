import Mathlib
import SetBench.Transition

/-! reclaimer_hazardptr of common/recordmgr/reclaimer_hazardptr.h over the AtomicArrayList of
common/recordmgr/arraylist.h. One step is one load or store of the size or of a slot of an
announcement list; the lists of retired objects and the sets of collected ones belong to
their threads. `threads` is the number of threads and `threshold` the capacity of a list of
retired objects. -/
namespace SetBench.HazardPtr

open Transition

inductive Stage where
  | live
  | retired
  | pooled
  deriving DecidableEq, Repr

inductive Pc (O : Type) where
  | idle
  | addSlot (obj : O)
  | addSize (obj : O)
  | notRetiredCallback (obj : O)
  -- unprotect, called by the thread or by a protect that failed.
  | eraseSlot (obj : O) (failed : Bool)
  | eraseSize
  | scanSize (otherTid : Nat)
  | scanSlot (otherTid ixHP sz : Nat)
  | sweep (ix : Nat)
  deriving DecidableEq, Repr

/-- `held` are the objects that a thread has protected and not since unprotected or dropped.
`stage` follows an object from retire to the pool and on to its next allocation; `retires` and
`pool` are the retire calls and the hand-overs in their order. -/
structure World (O : Type) where
  size : Nat → Nat
  slot : Nat → Nat → O
  pc : Nat → Pc O
  retired : Nat → List O
  comparing : Nat → List O
  held : Nat → O → Bool
  stage : O → Stage
  retires : List O
  pool : List O

structure Config where
  threads : Nat
  threshold : Nat

-- The capacity that the constructor of reclaimer_hazardptr computes.
def scanThreshold (numProcesses : Nat) : Nat := 5 * numProcesses * 16

inductive Event (O : Type) where
  | protect (tid : Nat) (obj : O)
  | unprotect (tid : Nat) (obj : O)
  | endOp (tid : Nat)
  | retire (tid : Nat) (obj : O)
  | allocate (obj : O)
  -- The answer of notRetiredCallback, where it is asked.
  | move (tid : Nat) (answer : Bool)

variable {O : Type} [DecidableEq O]

def initial (slot : Nat → Nat → O) : World O :=
  ⟨fun _ => 0, slot, fun _ => .idle, fun _ => [], fun _ => [], fun _ _ => false, fun _ => .live,
    [], []⟩

def World.goto (w : World O) (tid : Nat) (pc : Pc O) : World O :=
  { w with pc := Function.update w.pc tid pc }

def World.setSize (w : World O) (tid size : Nat) : World O :=
  { w with size := Function.update w.size tid size }

def World.setSlot (w : World O) (tid ix : Nat) (obj : O) : World O :=
  { w with slot := Function.update w.slot tid (Function.update (w.slot tid) ix obj) }

def World.setHeld (w : World O) (tid : Nat) (held : O → Bool) : World O :=
  { w with held := Function.update w.held tid held }

def World.collect (w : World O) (tid : Nat) (comparing : List O) : World O :=
  { w with comparing := Function.update w.comparing tid comparing }

-- retire begins with the local list; a full list starts a scan.
def World.retireObj (w : World O) (tid : Nat) (obj : O) : World O :=
  { w with
    retired := Function.update w.retired tid (w.retired tid ++ [obj])
    stage := Function.update w.stage obj .retired
    retires := w.retires ++ [obj] }

-- ArrayList::erase puts the last object in the place of the erased one.
def eraseAt (list : List O) (ix : Nat) : List O :=
  match list.getLast? with
  | none => []
  | some last => list.dropLast.set ix last

def World.poolAdd (w : World O) (tid ix : Nat) (obj : O) : World O :=
  { w with
    retired := Function.update w.retired tid (eraseAt (w.retired tid) ix)
    stage := Function.update w.stage obj .pooled
    pool := w.pool ++ [obj] }

def getIndex (w : World O) (tid : Nat) (obj : O) : Option Nat :=
  (List.range (w.size tid)).find? fun ix => w.slot tid ix = obj

def move (config : Config) (w : World O) (tid : Nat) (answer : Bool) : Option (World O) :=
  match w.pc tid with
  | .idle => none
  | .addSlot obj => some ((w.setSlot tid (w.size tid) obj).goto tid (.addSize obj))
  | .addSize obj => some ((w.setSize tid (w.size tid + 1)).goto tid (.notRetiredCallback obj))
  | .notRetiredCallback obj =>
      if answer = true then
        -- The callback answers true of no retired object.
        if w.stage obj = .live then
          some ((w.setHeld tid (Function.update (w.held tid) obj true)).goto tid .idle)
        else none
      else some (w.goto tid (.eraseSlot obj true))
  | .eraseSlot obj _ =>
      match getIndex w tid obj with
      | none => some (w.goto tid .idle)
      | some ix =>
          if ix ≠ w.size tid - 1 then some ((w.setSlot tid ix (w.slot tid (w.size tid - 1))).goto
            tid .eraseSize)
          else some (w.goto tid .eraseSize)
  | .eraseSize => some ((w.setSize tid (w.size tid - 1)).goto tid .idle)
  | .scanSize otherTid =>
      if otherTid < config.threads then some (w.goto tid (.scanSlot otherTid 0 (w.size otherTid)))
      else some (w.goto tid (.sweep 0))
  | .scanSlot otherTid ixHP sz =>
      if ixHP < sz then some ((w.collect tid (w.slot otherTid ixHP :: w.comparing tid)).goto tid
        (.scanSlot otherTid (ixHP + 1) sz))
      else some (w.goto tid (.scanSize (otherTid + 1)))
  | .sweep ix =>
      match (w.retired tid)[ix]? with
      | none => some (w.goto tid .idle)
      | some obj =>
          if obj ∈ w.comparing tid then some (w.goto tid (.sweep (ix + 1)))
          else some ((w.poolAdd tid ix obj).goto tid (.sweep ix))

def step (config : Config) (w : World O) : Event O → Option (World O)
  | .protect tid obj =>
      if tid < config.threads ∧ w.pc tid = .idle then some (w.goto tid (.addSlot obj)) else none
  | .unprotect tid obj =>
      if tid < config.threads ∧ w.pc tid = .idle then
        some ((w.setHeld tid (Function.update (w.held tid) obj false)).goto tid
          (.eraseSlot obj false))
      else none
  | .endOp tid =>
      if tid < config.threads ∧ w.pc tid = .idle then
        some ((w.setHeld tid fun _ => false).setSize tid 0)
      else none
  | .retire tid obj =>
      if tid < config.threads ∧ w.pc tid = .idle ∧ w.stage obj = .live then
        if (w.retired tid ++ [obj]).length =
          config.threshold then some (((w.retireObj tid obj).collect tid []).goto tid (.scanSize 0))
        else some (w.retireObj tid obj)
      else none
  | .allocate obj =>
      if w.stage obj = .pooled then some { w with stage := Function.update w.stage obj .live }
      else none
  | .move tid answer => move config w tid answer

-- The slot that an announcement overwrites is not the last one, of those that a running scan of
-- the list has yet to read, to hold an object that the thread protects and the scan looks for.
def Pc.Spares (scanner : Pc O) (w : World O) (tid other : Nat) : Prop :=
  match scanner with
  | .scanSlot otherTid ixHP sz =>
      otherTid = tid → ixHP ≤ w.size tid → w.size tid < sz → w.held tid (w.slot tid (w.size tid)) =
        true →
      w.slot tid (w.size tid) ∈ w.retired other → w.slot tid (w.size tid) ∉ w.comparing other →
      ∃ j < sz, ixHP ≤ j ∧ j ≠ w.size tid ∧ w.slot tid j = w.slot tid (w.size tid)
  | _ => True

def Pc.Careful (pc : Pc O) (config : Config) (w : World O) (tid : Nat) : Prop :=
  match pc with
  | .addSlot _ => ∀ other < config.threads, (w.pc other).Spares w tid other
  | _ => True

def Careful (config : Config) (w : World O) : Event O → Prop
  | .move tid _ => (w.pc tid).Careful config w tid
  | _ => True

/-! The list of retired objects. -/

omit [DecidableEq O] in
theorem eraseAt_perm {list : List O} {ix : Nat} {obj : O} (found : list[ix]? = some obj) :
    (obj :: eraseAt list ix).Perm list := by
  have nonempty : list ≠ [] := by
    rintro rfl
    cases found
  obtain ⟨rest, last, rfl⟩ : ∃ rest last, list = rest ++ [last] :=
    ⟨_, _, (List.dropLast_concat_getLast nonempty).symm⟩
  rw [eraseAt, List.getLast?_concat, List.dropLast_concat]
  dsimp only
  clear nonempty
  induction rest generalizing ix with
  | nil =>
      cases ix with
      | zero =>
          cases found
          exact List.Perm.refl _
      | succ ix => cases found
  | cons a rest ih =>
      cases ix with
      | zero =>
          cases found
          exact (List.perm_append_singleton last rest).symm.cons _
      | succ ix => exact (List.Perm.swap a obj _).trans ((ih found).cons a)

/-! The invariant. -/

-- The announcements that count: not the one just made, nor the one about to be dropped.
def Pc.limit (pc : Pc O) (size : Nat) : Nat :=
  match pc with
  | .notRetiredCallback _ | .eraseSlot _ true | .eraseSize => size - 1
  | _ => size

def Pc.Ok (pc : Pc O) (size : Nat) (slot : Nat → O) (held : O → Bool) : Prop :=
  match pc with
  | .addSize obj => slot size = obj
  | .notRetiredCallback obj | .eraseSlot obj true => 0 < size ∧ slot (size - 1) = obj
  | .eraseSlot obj false => held obj = false
  | .eraseSize => 0 < size
  | _ => True

-- What a scan still has to find. `held` and `slot` are those of all threads.
def Pc.Scans (pc : Pc O) (threads : Nat) (held : Nat → O → Bool) (slot : Nat → Nat → O)
    (comparing : List O) (x : O) : Prop :=
  match pc with
  | .scanSize otherTid => ∀ t < otherTid, held t x = true → x ∈ comparing
  | .scanSlot otherTid ixHP sz => (∀ t < otherTid, held t x = true → x ∈ comparing)
      ∧ (held otherTid x = true → x ∈ comparing ∨ ∃ j < sz, ixHP ≤ j ∧ slot otherTid j = x)
  | .sweep _ => ∀ t < threads, held t x = true → x ∈ comparing
  | _ => True

def Stage.pending : Stage → Nat
  | .retired => 1
  | .live | .pooled => 0

structure Inv (config : Config) (w : World O) : Prop where
  place : ∀ t, (w.pc t).Ok (w.size t) (w.slot t) (w.held t)
  outside : ∀ t, config.threads ≤ t → w.pc t = .idle ∧ ∀ x, w.held t x = false
  present : ∀ t x, w.held t x = true → ∃ j < (w.pc t).limit (w.size t), w.slot t j = x
  gone : ∀ t x, x ∈ w.retired t → w.stage x = .retired
  nodup : ∀ t, (w.retired t).Nodup
  apart : ∀ t s x, x ∈ w.retired t → x ∈ w.retired s → t = s
  scans : ∀ t x, x ∈ w.retired t → (w.pc t).Scans config.threads w.held w.slot (w.comparing t) x
  counts : ∀ x, w.retires.count x = w.pool.count x + (w.stage x).pending

-- A scan only gains when protections end and when the slots it looks for keep their objects.
theorem Pc.Scans.keep {pc : Pc O} {threads : Nat} {held held' : Nat → O → Bool}
    {slot slot' : Nat → Nat → O} {comparing : List O} {x : O}
    (scans : pc.Scans threads held slot comparing x)
    (fewer : ∀ t, held' t x = true → held t x = true)
    (found : ∀ otherTid ixHP sz j, pc = .scanSlot otherTid ixHP sz → held' otherTid x = true →
      x ∉ comparing → j < sz → ixHP ≤ j → slot otherTid j = x → ∃ k < sz, ixHP ≤ k ∧
      slot' otherTid k = x) : pc.Scans threads held' slot' comparing x := by
  cases pc with
  | scanSize otherTid => exact fun t below yes => scans t below (fewer t yes)
  | scanSlot otherTid ixHP sz =>
      refine ⟨fun t below yes => scans.1 t below (fewer t yes), fun yes => ?_⟩
      by_cases collected : x ∈ comparing
      · exact .inl collected
      · rcases scans.2 (fewer otherTid yes) with old | ⟨j, below, low, here⟩
        · exact .inl old
        · exact .inr (found otherTid ixHP sz j rfl yes collected below low here)
  | sweep ix => exact fun t below yes => scans t below (fewer t yes)
  | idle | addSlot | addSize | notRetiredCallback | eraseSlot | eraseSize => trivial

theorem Pc.Scans.same {pc : Pc O} {threads : Nat} {held held' : Nat → O → Bool}
    {slot : Nat → Nat → O} {comparing : List O} {x : O}
    (scans : pc.Scans threads held slot comparing x)
    (fewer : ∀ t, held' t x = true → held t x = true) :
    pc.Scans threads held' slot comparing x :=
  scans.keep fewer fun _ _ _ j _ _ _ below low here => ⟨j, below, low, here⟩

section Steps

variable {config : Config} {w : World O} (inv : Inv config w) {tid : Nat}
    (active : tid < config.threads)

include inv

theorem Inv.active_of {tid : Nat} (moving : w.pc tid ≠ .idle) : tid < config.threads := by
  by_contra above
  exact moving (inv.outside tid (by omega)).1

include active

/-- One thread changes its own list of announcements, its protections and its place. -/
theorem Inv.own (size : Nat) (slot : Nat → O) (held : O → Bool) (pc : Pc O)
    (place : pc.Ok size slot held)
    (present : ∀ x, held x = true → ∃ j < pc.limit size, slot j = x)
    (fewer : ∀ x, held x = true → w.stage x ≠ .live → w.held tid x = true)
    (found : ∀ other x ixHP sz j, other < config.threads → w.pc other = .scanSlot tid ixHP sz →
      held x = true → x ∈ w.retired other → x ∉ w.comparing other → j < sz → ixHP ≤ j →
      w.slot tid j = x → ∃ k < sz, ixHP ≤ k ∧ slot k = x)
    (mine : ∀ x, x ∈ w.retired tid → pc.Scans config.threads (Function.update w.held tid held)
      (Function.update w.slot tid slot) (w.comparing tid) x) :
    Inv config { w with
      size := Function.update w.size tid size
      slot := Function.update w.slot tid slot
      held := Function.update w.held tid held
      pc := Function.update w.pc tid pc } := by
  refine ⟨fun t => ?_, fun t above => ?_, fun t x => ?_, inv.gone, inv.nodup, inv.apart,
    fun t x member => ?_, inv.counts⟩
  · dsimp only
    by_cases self : t = tid
    · rw [self, Function.update_self, Function.update_self, Function.update_self,
        Function.update_self]
      exact place
    · rw [Function.update_of_ne self, Function.update_of_ne self, Function.update_of_ne self,
        Function.update_of_ne self]
      exact inv.place t
  · dsimp only
    have self : t ≠ tid := by omega
    rw [Function.update_of_ne self, Function.update_of_ne self]
    exact inv.outside t above
  · dsimp only
    by_cases self : t = tid
    · rw [self, Function.update_self, Function.update_self, Function.update_self,
        Function.update_self]
      exact present x
    · rw [Function.update_of_ne self, Function.update_of_ne self, Function.update_of_ne self,
        Function.update_of_ne self]
      exact inv.present t x
  · dsimp only at member ⊢
    by_cases self : t = tid
    · rw [self] at member ⊢
      rw [Function.update_self]
      exact mine x member
    · rw [Function.update_of_ne self]
      have dead : w.stage x ≠ .live := by
        rw [inv.gone t x member]
        nofun
      refine (inv.scans t x member).keep (fun u yes => ?_)
        fun otherTid ixHP sz j pc yes missing below low here => ?_
      · by_cases same : u = tid
        · rw [same, Function.update_self] at yes
          rw [same]
          exact fewer x yes dead
        · rw [Function.update_of_ne same] at yes
          exact yes
      · by_cases same : otherTid = tid
        · rw [same] at yes here pc ⊢
          rw [Function.update_self] at yes ⊢
          exact found t x ixHP sz j (inv.active_of (by rw [pc]; nofun)) pc yes member missing below
            low here
        · rw [Function.update_of_ne same]
          exact ⟨j, below, low, here⟩

-- The thread goes on, with its announcements and protections as they are.
theorem Inv.goto {pc : Pc O} (place : pc.Ok (w.size tid) (w.slot tid) (w.held tid))
    (limit : (w.pc tid).limit (w.size tid) ≤ pc.limit (w.size tid))
    (mine : ∀ x, x ∈ w.retired tid → pc.Scans config.threads w.held w.slot (w.comparing tid) x) :
    Inv config (w.goto tid pc) := by
  have next := inv.own active (w.size tid) (w.slot tid) (w.held tid) pc place
    (fun x yes => by obtain ⟨j, below, here⟩ := inv.present tid x yes; exact ⟨j, by omega, here⟩)
    (fun x yes _ => yes)
    (fun _ _ _ _ j _ _ _ _ _ below low here => ⟨j, below, low, here⟩)
    (by simpa only [Function.update_eq_self] using mine)
  simp only [Function.update_eq_self] at next
  exact next

theorem Inv.addSlot {obj : O} (pc : w.pc tid = .addSlot obj)
    (careful : (w.pc tid).Careful config w tid) :
    Inv config ((w.setSlot tid (w.size tid) obj).goto tid (.addSize obj)) := by
  rw [pc] at careful
  have next := inv.own active (w.size tid) (Function.update (w.slot tid) (w.size tid) obj)
    (w.held tid) (.addSize obj) ?_ (fun x yes => ?_)
    (fun x yes _ => yes) (fun other x ixHP sz j below place yes member missing high low here => ?_)
    fun _ _ => trivial
  · simp only [Function.update_eq_self] at next
    exact next
  · show Function.update (w.slot tid) (w.size tid) obj (w.size tid) = obj
    rw [Function.update_self]
  · obtain ⟨j, below, here⟩ := inv.present tid x yes
    rw [pc] at below
    have small : j < w.size tid := below
    exact ⟨j, small, by rw [Function.update_of_ne (by omega)]; exact here⟩
  · by_cases last : j = w.size tid
    · subst last
      have spares := careful other below
      rw [place] at spares
      subst here
      obtain ⟨k, high', low', apart, same⟩ := spares rfl low high yes member missing
      exact ⟨k, high', low', by rw [Function.update_of_ne apart]; exact same⟩
    · exact ⟨j, high, low, by rw [Function.update_of_ne last]; exact here⟩

theorem Inv.addSize {obj : O} (pc : w.pc tid = .addSize obj) :
    Inv config ((w.setSize tid (w.size tid + 1)).goto tid (.notRetiredCallback obj)) := by
  have place := inv.place tid
  rw [pc] at place
  have next := inv.own active (w.size tid + 1) (w.slot tid) (w.held tid) (.notRetiredCallback obj)
    ⟨Nat.succ_pos _, place⟩ (fun x yes => ?_)
    (fun x yes _ => yes) (fun _ _ _ _ j _ _ _ _ _ below low here => ⟨j, below, low, here⟩)
    fun _ _ => trivial
  · simp only [Function.update_eq_self] at next
    exact next
  · obtain ⟨j, below, here⟩ := inv.present tid x yes
    rw [pc] at below
    exact ⟨j, below, here⟩

theorem Inv.protected {obj : O} (pc : w.pc tid = .notRetiredCallback obj)
    (live : w.stage obj = .live) :
    Inv config ((w.setHeld tid (Function.update (w.held tid) obj true)).goto tid .idle) := by
  have place := inv.place tid
  rw [pc] at place
  have next := inv.own active (w.size tid) (w.slot tid) (Function.update (w.held tid) obj true)
    .idle trivial (fun x yes => ?_)
    (fun x yes dead => ?_) (fun _ _ _ _ j _ _ _ _ _ below low here => ⟨j, below, low, here⟩)
    fun _ _ => trivial
  · simp only [Function.update_eq_self] at next
    exact next
  · by_cases self : x = obj
    · have positive := place.1
      exact ⟨w.size tid - 1, by show w.size tid - 1 < w.size tid; omega, self ▸ place.2⟩
    · rw [Function.update_of_ne self] at yes
      obtain ⟨j, below, here⟩ := inv.present tid x yes
      rw [pc] at below
      have small : j < w.size tid - 1 := below
      exact ⟨j, by show j < w.size tid; omega, here⟩
  · by_cases self : x = obj
    · rw [self, live] at dead
      exact absurd rfl dead
    · rw [Function.update_of_ne self] at yes
      exact yes

omit inv active in
theorem getIndex_some {tid ix : Nat} {obj : O} (found : getIndex w tid obj = some ix) :
    ix < w.size tid ∧ w.slot tid ix = obj := by
  have member := List.mem_of_find?_eq_some found
  have here := List.find?_some found
  exact ⟨List.mem_range.mp member, of_decide_eq_true here⟩

omit active in
-- The erased slot holds the object that is given up, or gets the same object again.
theorem Inv.erased {obj : O} {failed : Bool} (pc : w.pc tid = .eraseSlot obj failed) {x : O}
    (yes : w.held tid x = true) :
    x ≠ obj ∨ failed = true ∧ w.slot tid (w.size tid - 1) = obj := by
  have place := inv.place tid
  rw [pc] at place
  cases failed with
  | true => exact .inr ⟨rfl, place.2⟩
  | false =>
      left
      rintro rfl
      have no : w.held tid x = false := place
      rw [no] at yes
      cases yes

theorem Inv.eraseStore {obj : O} {failed : Bool} {ix : Nat}
    (pc : w.pc tid = .eraseSlot obj failed) (found : getIndex w tid obj = some ix)
    (apart : ix ≠ w.size tid - 1) :
    Inv config ((w.setSlot tid ix (w.slot tid (w.size tid - 1))).goto tid .eraseSize) := by
  obtain ⟨inside, value⟩ := getIndex_some found
  have next := inv.own active (w.size tid)
    (Function.update (w.slot tid) ix (w.slot tid (w.size tid - 1))) (w.held tid) .eraseSize
    (show 0 < w.size tid by omega) (fun x yes => ?_) (fun x yes _ => yes)
    (fun other x ixHP sz j below place yes member missing high low here => ?_) fun _ _ => trivial
  · simp only [Function.update_eq_self] at next
    exact next
  · show ∃ j < w.size tid - 1, _
    obtain ⟨j, below, here⟩ := inv.present tid x yes
    rw [pc] at below
    by_cases erased : j = ix
    · refine ⟨ix, by omega, ?_⟩
      rw [Function.update_self]
      rcases inv.erased pc yes with other | ⟨_, last⟩
      · rw [erased, value] at here
        exact absurd here.symm other
      · rw [last, ← here, erased, value]
    · by_cases last : j = w.size tid - 1
      · refine ⟨ix, by omega, ?_⟩
        rw [Function.update_self, ← last]
        exact here
      · have small : j < w.size tid := by
          cases failed with
          | true =>
              have bound : j < w.size tid - 1 := below
              omega
          | false => exact below
        exact ⟨j, by omega, by rw [Function.update_of_ne erased]; exact here⟩
  · by_cases erased : j = ix
    · rcases inv.erased pc yes with other' | ⟨_, last⟩
      · rw [erased, value] at here
        exact absurd here.symm other'
      · exact ⟨j, high, low, by rw [erased, Function.update_self, last, ← here, erased, value]⟩
    · exact ⟨j, high, low, by rw [Function.update_of_ne erased]; exact here⟩

theorem Inv.eraseLast {obj : O} {failed : Bool} {ix : Nat} (pc : w.pc tid = .eraseSlot obj failed)
    (found : getIndex w tid obj = some ix) (last : ix = w.size tid - 1) :
    Inv config (w.goto tid .eraseSize) := by
  obtain ⟨inside, value⟩ := getIndex_some found
  have next := inv.own active (w.size tid) (w.slot tid) (w.held tid) .eraseSize
    (show 0 < w.size tid by omega) (fun x yes => ?_) (fun x yes _ => yes)
    (fun _ _ _ _ j _ _ _ _ _ below low here => ⟨j, below, low, here⟩) fun _ _ => trivial
  · simp only [Function.update_eq_self] at next
    exact next
  · show ∃ j < w.size tid - 1, _
    obtain ⟨j, below, here⟩ := inv.present tid x yes
    rw [pc] at below
    rcases inv.erased pc yes with other | ⟨rfl, _⟩
    · have small : j < w.size tid := by
        cases failed with
        | true =>
            have bound : j < w.size tid - 1 := below
            omega
        | false => exact below
      have differs : j ≠ w.size tid - 1 := by
        rintro rfl
        rw [← last, value] at here
        exact other here.symm
      exact ⟨j, by omega, here⟩
    · exact ⟨j, below, here⟩

theorem Inv.eraseSize (pc : w.pc tid = .eraseSize) :
    Inv config ((w.setSize tid (w.size tid - 1)).goto tid .idle) := by
  have next := inv.own active (w.size tid - 1) (w.slot tid) (w.held tid) .idle trivial
    (fun x yes => ?_) (fun x yes _ => yes)
    (fun _ _ _ _ j _ _ _ _ _ below low here => ⟨j, below, low, here⟩) fun _ _ => trivial
  · simp only [Function.update_eq_self] at next
    exact next
  · obtain ⟨j, below, here⟩ := inv.present tid x yes
    rw [pc] at below
    exact ⟨j, below, here⟩

theorem Inv.unprotect {obj : O} (pc : w.pc tid = .idle) :
    Inv config ((w.setHeld tid (Function.update (w.held tid) obj false)).goto tid
      (.eraseSlot obj false)) := by
  have fewer (x : O) (yes : Function.update (w.held tid) obj false x = true) :
    w.held tid x = true := by
    by_cases self : x = obj
    · rw [self, Function.update_self] at yes
      cases yes
    · rw [Function.update_of_ne self] at yes
      exact yes
  have next := inv.own active (w.size tid) (w.slot tid) (Function.update (w.held tid) obj false)
    (.eraseSlot obj false) ?_ (fun x yes => ?_)
    (fun x yes _ => fewer x yes) (fun _ _ _ _ j _ _ _ _ _ below low here => ⟨j, below, low, here⟩)
    fun _ _ => trivial
  · simp only [Function.update_eq_self] at next
    exact next
  · show Function.update (w.held tid) obj false obj = false
    rw [Function.update_self]
  · have here := inv.present tid x (fewer x yes)
    rw [pc] at here
    exact here

theorem Inv.endOp (pc : w.pc tid = .idle) :
    Inv config ((w.setHeld tid fun _ => false).setSize tid 0) := by
  have next := inv.own active 0 (w.slot tid) (fun _ => false) .idle trivial nofun nofun
    (fun _ _ _ _ _ _ _ no => by cases no) fun _ _ => trivial
  have same : Function.update w.pc tid .idle = w.pc := by
    rw [← pc, Function.update_eq_self]
  rw [same, Function.update_eq_self tid w.slot] at next
  exact next

-- The scan reads a slot.
theorem Inv.collect {otherTid ixHP sz : Nat} (pc : w.pc tid = .scanSlot otherTid ixHP sz) :
    Inv config ((w.collect tid (w.slot otherTid ixHP :: w.comparing tid)).goto tid
      (.scanSlot otherTid (ixHP + 1) sz)) := by
  have ready : ∀ x, x ∈ w.retired tid → (Pc.scanSlot otherTid (ixHP + 1) sz).Scans config.threads
    w.held w.slot (w.slot otherTid ixHP :: w.comparing tid) x := by
    intro x member
    have scans := inv.scans tid x member
    rw [pc] at scans
    refine ⟨fun t below yes => List.mem_cons_of_mem _ (scans.1 t below yes), fun yes => ?_⟩
    rcases scans.2 yes with old | ⟨j, below, low, here⟩
    · exact .inl (List.mem_cons_of_mem _ old)
    · by_cases now : j = ixHP
      · refine .inl ?_
        rw [← here, now]
        exact List.mem_cons_self
      · exact .inr ⟨j, below, by omega, here⟩
  refine ⟨fun t => ?_, fun t above => ?_, fun t x yes => ?_, inv.gone, inv.nodup, inv.apart,
    fun t x member => ?_, inv.counts⟩
  · simp only [World.goto, World.collect]
    by_cases self : t = tid
    · rw [self, Function.update_self]
      trivial
    · rw [Function.update_of_ne self]
      exact inv.place t
  · simp only [World.goto, World.collect]
    rw [Function.update_of_ne (by omega)]
    exact inv.outside t above
  · simp only [World.goto, World.collect]
    have here := inv.present t x yes
    by_cases self : t = tid
    · rw [self, pc] at here
      rw [self, Function.update_self]
      exact here
    · rw [Function.update_of_ne self]
      exact here
  · simp only [World.goto, World.collect]
    by_cases self : t = tid
    · rw [self, Function.update_self, Function.update_self]
      exact ready x (self ▸ member)
    · rw [Function.update_of_ne self, Function.update_of_ne self]
      exact inv.scans t x member

-- The sweep hands an object to the pool.
theorem Inv.poolAdd {ix : Nat} {obj : O} (pc : w.pc tid = .sweep ix)
    (found : (w.retired tid)[ix]? = some obj) :
    Inv config ((w.poolAdd tid ix obj).goto tid (.sweep ix)) := by
  have perm := eraseAt_perm found
  have old : obj ∈ w.retired tid := perm.subset List.mem_cons_self
  have distinct := List.nodup_cons.mp (perm.nodup_iff.mpr (inv.nodup tid))
  have fewer (t : Nat) (x : O)
    (member : x ∈ Function.update w.retired tid (eraseAt (w.retired tid) ix) t) : x ∈ w.retired t ∧
    x ≠ obj := by
    by_cases self : t = tid
    · subst self
      rw [Function.update_self] at member
      refine ⟨perm.subset (List.mem_cons_of_mem obj member), ?_⟩
      rintro rfl
      exact distinct.1 member
    · rw [Function.update_of_ne self] at member
      refine ⟨member, ?_⟩
      rintro rfl
      exact self (inv.apart t tid x member old)
  have still : Function.update w.pc tid (.sweep ix) = w.pc := by
    rw [← pc, Function.update_eq_self]
  have same : (w.poolAdd tid ix obj).goto tid (.sweep ix) = w.poolAdd tid ix obj := by
    simp only [World.goto, World.poolAdd, still]
  rw [same]
  refine ⟨inv.place, inv.outside, inv.present, fun t x member => ?_, fun t => ?_,
    fun t s x first second => ?_, fun t x member => ?_, fun x => ?_⟩
  · obtain ⟨before, other⟩ := fewer t x member
    exact (Function.update_of_ne other _ _).trans (inv.gone t x before)
  · simp only [World.poolAdd]
    by_cases self : t = tid
    · rw [self, Function.update_self]
      exact distinct.2
    · rw [Function.update_of_ne self]
      exact inv.nodup t
  · exact inv.apart t s x (fewer t x first).1 (fewer s x second).1
  · exact inv.scans t x (fewer t x member).1
  · have before := inv.counts x
    simp only [World.poolAdd]
    rw [List.count_append]
    by_cases self : x = obj
    · subst self
      rw [inv.gone tid x old] at before
      rw [Function.update_self, List.count_singleton_self]
      exact before
    · rw [Function.update_of_ne self, List.count_singleton, if_neg (by simpa using Ne.symm self)]
      exact before

theorem Inv.retireObj {obj : O} (pc : w.pc tid = .idle) (live : w.stage obj = .live) :
    Inv config (w.retireObj tid obj) := by
  have fresh (t : Nat) : obj ∉ w.retired t := by
    intro member
    rw [inv.gone t obj member] at live
    cases live
  have cases_ (t : Nat) (x : O) (member : x ∈ Function.update w.retired tid (w.retired tid ++ [obj])
    t) : x ∈ w.retired t ∨ t = tid ∧ x = obj := by
    by_cases self : t = tid
    · subst self
      rw [Function.update_self, List.mem_append, List.mem_singleton] at member
      rcases member with old | new
      · exact .inl old
      · exact .inr ⟨rfl, new⟩
    · rw [Function.update_of_ne self] at member
      exact .inl member
  refine ⟨inv.place, inv.outside, inv.present, fun t x member => ?_, fun t => ?_,
    fun t s x first second => ?_, fun t x member => ?_, fun x => ?_⟩
  · show Function.update w.stage obj .retired x = .retired
    rcases cases_ t x member with old | ⟨_, new⟩
    · have other : x ≠ obj := by
        rintro rfl
        exact fresh t old
      rw [Function.update_of_ne other]
      exact inv.gone t x old
    · rw [new, Function.update_self]
  · simp only [World.retireObj]
    by_cases self : t = tid
    · rw [self, Function.update_self]
      exact (inv.nodup tid).append (List.nodup_singleton obj)
        (List.disjoint_singleton.mpr (fresh tid))
    · rw [Function.update_of_ne self]
      exact inv.nodup t
  · rcases cases_ t x first with old | ⟨here, new⟩
    · rcases cases_ s x second with old' | ⟨_, new'⟩
      · exact inv.apart t s x old old'
      · rw [new'] at old
        exact absurd old (fresh t)
    · rcases cases_ s x second with old' | ⟨here', _⟩
      · rw [new] at old'
        exact absurd old' (fresh s)
      · rw [here, here']
  · rcases cases_ t x member with old | ⟨here, _⟩
    · exact inv.scans t x old
    · show (w.pc t).Scans config.threads w.held w.slot (w.comparing t) x
      rw [here, pc]
      trivial
  · have before := inv.counts x
    simp only [World.retireObj]
    rw [List.count_append]
    by_cases self : x = obj
    · subst self
      rw [live] at before
      rw [Function.update_self, List.count_singleton_self, before]
      rfl
    · rw [Function.update_of_ne self, List.count_singleton, if_neg (by simpa using Ne.symm self)]
      exact before

omit active in
theorem Inv.allocate {obj : O} (pooled : w.stage obj = .pooled) :
    Inv config { w with stage := Function.update w.stage obj .live } := by
  refine ⟨inv.place, inv.outside, inv.present, fun t x member => ?_, inv.nodup, inv.apart,
    inv.scans, fun x => ?_⟩
  · have old := inv.gone t x member
    have other : x ≠ obj := by
      rintro rfl
      rw [pooled] at old
      cases old
    exact (Function.update_of_ne other _ _).trans old
  · have before := inv.counts x
    dsimp only
    by_cases self : x = obj
    · subst self
      rw [pooled] at before
      rw [Function.update_self]
      exact before
    · rw [Function.update_of_ne self]
      exact before

-- A scan begins with nothing collected.
theorem Inv.scan (pc : w.pc tid = .idle) :
    Inv config ((w.collect tid []).goto tid (.scanSize 0)) := by
  have cleared : Inv config (w.collect tid []) := by
    refine ⟨inv.place, inv.outside, inv.present, inv.gone, inv.nodup, inv.apart,
      fun t x member => ?_, inv.counts⟩
    simp only [World.collect]
    by_cases self : t = tid
    · rw [self, pc]
      trivial
    · rw [Function.update_of_ne self]
      exact inv.scans t x member
  refine cleared.goto active trivial ?_ fun x _ t below => absurd below (Nat.not_lt_zero t)
  show (w.pc tid).limit (w.size tid) ≤ w.size tid
  rw [pc]
  exact Nat.le_refl _

end Steps

omit [DecidableEq O] in
theorem limit_le (pc : Pc O) (size : Nat) : pc.limit size ≤ size := by
  unfold Pc.limit
  split <;> omega

theorem move_inv {config : Config} {w after : World O} (inv : Inv config w) {tid : Nat}
    {answer : Bool} (careful : (w.pc tid).Careful config w tid)
    (moved : move config w tid answer = some after) : Inv config after := by
  have reach : w.pc tid ≠ .idle → tid < config.threads := inv.active_of
  have place := inv.place tid
  unfold move at moved
  split at moved
  · cases moved
  · rename_i obj pc
    cases moved
    exact inv.addSlot (reach (by rw [pc]; nofun)) pc careful
  · rename_i obj pc
    cases moved
    exact inv.addSize (reach (by rw [pc]; nofun)) pc
  · rename_i obj pc
    have active := reach (by rw [pc]; nofun)
    split at moved
    · obtain ⟨live, ⟨⟩⟩ := Option.ite_none_right_eq_some.mp moved
      exact inv.protected active pc live
    · cases moved
      rw [pc] at place
      exact inv.goto active place (by rw [pc]; exact Nat.le_refl _) fun _ _ => trivial
  · rename_i obj failed pc
    have active := reach (by rw [pc]; nofun)
    split at moved
    · cases moved
      refine inv.goto active trivial ?_ fun _ _ => trivial
      rw [pc]
      cases failed with
      | true => exact Nat.sub_le _ _
      | false => exact Nat.le_refl _
    · rename_i ix found
      split at moved <;> cases moved
      · rename_i apart
        exact inv.eraseStore active pc found apart
      · rename_i last
        exact inv.eraseLast active pc found (not_not.mp last)
  · rename_i pc
    cases moved
    exact inv.eraseSize (reach (by rw [pc]; nofun)) pc
  · rename_i otherTid pc
    have active := reach (by rw [pc]; nofun)
    split at moved <;> cases moved
    · refine inv.goto active trivial (by rw [pc]; exact Nat.le_refl _) fun x member => ?_
      have scans := inv.scans tid x member
      rw [pc] at scans
      refine ⟨scans, fun yes => .inr ?_⟩
      obtain ⟨j, below, here⟩ := inv.present otherTid x yes
      exact ⟨j, Nat.lt_of_lt_of_le below (limit_le _ _), Nat.zero_le j, here⟩
    · rename_i all
      refine inv.goto active trivial (by rw [pc]; exact Nat.le_refl _) fun x member => ?_
      have scans := inv.scans tid x member
      rw [pc] at scans
      exact fun t below => scans t (by omega)
  · rename_i otherTid ixHP sz pc
    have active := reach (by rw [pc]; nofun)
    split at moved <;> cases moved
    · exact inv.collect active pc
    · rename_i done
      refine inv.goto active trivial (by rw [pc]; exact Nat.le_refl _) fun x member => ?_
      have scans := inv.scans tid x member
      rw [pc] at scans
      intro t below yes
      rcases Nat.lt_succ_iff_lt_or_eq.mp below with old | rfl
      · exact scans.1 t old yes
      · rcases scans.2 yes with collected | ⟨j, high, low, _⟩
        · exact collected
        · omega
  · rename_i ix pc
    have active := reach (by rw [pc]; nofun)
    have limit : (w.pc tid).limit (w.size tid) ≤ w.size tid := by
      rw [pc]
      exact Nat.le_refl _
    split at moved
    · cases moved
      exact inv.goto active trivial limit fun _ _ => trivial
    · rename_i obj found
      split at moved <;> cases moved
      · refine inv.goto active trivial limit fun x member => ?_
        have scans := inv.scans tid x member
        rw [pc] at scans
        exact scans
      · exact inv.poolAdd active pc found

theorem step_inv (config : Config) (before : World O) (event : Event O) (after : World O)
    (inv : Inv config before) (careful : Careful config before event)
    (stepped : step config before event = some after) : Inv config after := by
  cases event with
  | protect tid obj =>
      obtain ⟨⟨active, idle⟩, ⟨⟩⟩ := Option.ite_none_right_eq_some.mp stepped
      exact inv.goto active trivial (by rw [idle]; exact Nat.le_refl _) fun _ _ => trivial
  | unprotect tid obj =>
      obtain ⟨⟨active, idle⟩, ⟨⟩⟩ := Option.ite_none_right_eq_some.mp stepped
      exact inv.unprotect active idle
  | endOp tid =>
      obtain ⟨⟨active, idle⟩, ⟨⟩⟩ := Option.ite_none_right_eq_some.mp stepped
      exact inv.endOp active idle
  | retire tid obj =>
      obtain ⟨⟨active, idle, live⟩, rest⟩ := Option.ite_none_right_eq_some.mp stepped
      have next := inv.retireObj active idle live
      split at rest <;> cases rest
      · exact next.scan active idle
      · exact next
  | allocate obj =>
      obtain ⟨pooled, ⟨⟩⟩ := Option.ite_none_right_eq_some.mp stepped
      exact inv.allocate pooled
  | move tid answer => exact move_inv inv careful stepped

theorem initial_inv (config : Config) (slot : Nat → Nat → O) : Inv config (initial slot) :=
  ⟨fun _ => trivial, fun _ _ => ⟨rfl, fun _ => rfl⟩, nofun, nofun, fun _ => List.nodup_nil, nofun,
    nofun, fun _ => rfl⟩

-- Only the sweep hands objects over, and only such as the scan has not collected.
theorem move_pools {config : Config} {w after : World O} {tid : Nat} {answer : Bool}
    (moved : move config w tid answer = some after) :
    after.pool = w.pool ∨ ∃ ix obj, w.pc tid = .sweep ix ∧ (w.retired tid)[ix]? = some obj ∧
      obj ∉ w.comparing tid ∧ after.pool = w.pool ++ [obj] := by
  unfold move at moved
  split at moved
  · cases moved
  · cases moved
    exact .inl rfl
  · cases moved
    exact .inl rfl
  · split at moved
    · obtain ⟨_, ⟨⟩⟩ := Option.ite_none_right_eq_some.mp moved
      exact .inl rfl
    · cases moved
      exact .inl rfl
  · split at moved
    · cases moved
      exact .inl rfl
    · split at moved <;> cases moved <;> exact .inl rfl
  · cases moved
    exact .inl rfl
  · split at moved <;> cases moved <;> exact .inl rfl
  · split at moved <;> cases moved <;> exact .inl rfl
  · rename_i ix pc
    split at moved
    · cases moved
      exact .inl rfl
    · rename_i obj found
      split at moved <;> cases moved
      · exact .inl rfl
      · rename_i missing
        exact .inr ⟨ix, obj, pc, found, missing, rfl⟩

/-- While no announcement overwrites the last slot in which a running scan would find an object
that the announcing thread protects, an object that a step hands to the pool is protected by
nobody; and no object is handed over more often than it was retired. -/
theorem protected_objects_kept {config : Config} {slot : Nat → Nat → O} {events : List (Event O)}
    {w : World O} (run : Run (step config) (Careful config) (initial slot) events w) :
    (∀ event after x, step config w event = some after → after.pool = w.pool ++ [x] →
      ∀ t, w.held t x = false)
      ∧ ∀ x, w.pool.count x ≤ w.retires.count x := by
  have inv : Inv config w :=
    run_invariant (Inv config) (initial_inv config slot) (step_inv config) run
  refine ⟨fun event after x stepped pool t => ?_, fun x => ?_⟩
  · have same (unchanged : after.pool = w.pool) : False := by
      rw [unchanged] at pool
      simp at pool
    cases event with
    | protect tid obj | unprotect tid obj | endOp tid | allocate obj =>
        obtain ⟨_, ⟨⟩⟩ := Option.ite_none_right_eq_some.mp stepped
        exact (same rfl).elim
    | retire tid obj =>
        obtain ⟨_, rest⟩ := Option.ite_none_right_eq_some.mp stepped
        split at rest <;> cases rest <;> exact (same rfl).elim
    | move tid answer =>
        rcases move_pools stepped with unchanged | ⟨ix, obj, pc, found, missing, handed⟩
        · exact (same unchanged).elim
        · obtain rfl : obj = x := by
            rw [handed] at pool
            exact (List.cons.inj (List.append_cancel_left pool)).1
          have scans := inv.scans tid obj (List.mem_of_getElem? found)
          rw [pc] at scans
          by_contra yes
          have protected_ : w.held t obj = true := by simpa using yes
          by_cases below : t < config.threads
          · exact missing (scans t below protected_)
          · rw [(inv.outside t (by omega)).2 obj] at protected_
            cases protected_
  · have counts := inv.counts x
    omega

instance (scanner : Pc O) (w : World O) (tid other : Nat) :
    Decidable (scanner.Spares w tid other) :=
  match scanner with
  | .scanSlot otherTid ixHP sz =>
      inferInstanceAs (Decidable (otherTid = tid → ixHP ≤ w.size tid → w.size tid < sz →
        w.held tid (w.slot tid (w.size tid)) = true →
        w.slot tid (w.size tid) ∈ w.retired other → w.slot tid (w.size tid) ∉ w.comparing other →
        ∃ j < sz, ixHP ≤ j ∧ j ≠ w.size tid ∧ w.slot tid j = w.slot tid (w.size tid)))
  | .idle | .addSlot _ | .addSize _ | .notRetiredCallback _ | .eraseSlot _
    _ | .eraseSize | .scanSize _ | .sweep _ => .isTrue trivial

instance (pc : Pc O) (config : Config) (w : World O) (tid : Nat) :
    Decidable (pc.Careful config w tid) :=
  match pc with
  | .addSlot _ =>
      inferInstanceAs (Decidable (∀ other < config.threads, (w.pc other).Spares w tid other))
  | .idle | .addSize _ | .notRetiredCallback _ | .eraseSlot _ _ | .eraseSize | .scanSize
    _ | .scanSlot _ _ _ | .sweep _ => .isTrue trivial

instance (config : Config) (w : World O) (event : Event O) : Decidable (Careful config w event) :=
  match event with
  | .move tid _ => inferInstanceAs (Decidable ((w.pc tid).Careful config w tid))
  | .protect _ _ | .unprotect _ _ | .endOp _ | .retire _ _ | .allocate _ => .isTrue trivial

def moves (tid steps : Nat) : List (Event Nat) := List.replicate steps (.move tid true)

def protectBy (tid obj : Nat) : List (Event Nat) := .protect tid obj :: moves tid 3

def retiresBy (tid count : Nat) : List (Event Nat) :=
  (List.range count).map fun obj => .retire tid obj

-- Thread 0 protects 0 and 200, thread 1 retires 0 to 159 and scans both lists.
def retireProtected : List (Event Nat) :=
  [protectBy 0 200, protectBy 0 0, retiresBy 1 160, moves 1 8].flatten

theorem protected_object_stays :
    ∃ w, Run (step ⟨2, scanThreshold 2⟩) (Careful ⟨2, scanThreshold 2⟩) (initial fun _ _ => 0)
      retireProtected w
    ∧ w.held 0 0 = true ∧ 0 ∈ w.retired 1 ∧ ∃ after, step ⟨2, scanThreshold 2⟩ w (.move 1 true) =
      some after ∧ after.pool = w.pool ++ [1]
    ∧ w.held 0 1 = false := by
  have replayed : (replay (step ⟨2, scanThreshold 2⟩) (Careful ⟨2, scanThreshold 2⟩) retireProtected
    (initial fun _ _ => 0)).map (fun w =>
      (w.held 0 0, decide (0 ∈ w.retired 1), (step ⟨2, scanThreshold 2⟩ w (.move 1 true)).map
        fun after => decide (after.pool = w.pool ++ [1]))) =
        some (true, true, some true) := by
    decide +kernel
  obtain ⟨w, same, values⟩ := Option.map_eq_some_iff.mp replayed
  simp only [Prod.mk.injEq, decide_eq_true_eq, Option.map_eq_some_iff] at values
  obtain ⟨yes, waits, after, stepped, pool⟩ := values
  have run := run_of_replay retireProtected same
  exact ⟨w, run, yes, waits, after, stepped, pool, (protected_objects_kept run).1 (.move 1 true)
    after 1 stepped pool 0⟩

-- Thread 1 has read the first slot of thread 0 when thread 0 drops the object announced there,
-- which moves 0 into the slot already read, and announces 201 over the slot that still held 0.
def movedBehindScan : List (Event Nat) :=
  [protectBy 0 200, protectBy 0 0, retiresBy 1 160, moves 1 2, [.unprotect 0 200], moves 0 2,
    protectBy 0 201, moves 1 5].flatten

theorem moved_behind_scan_freed :
    ¬ ∀ (events : List (Event Nat)) (w after : World Nat) (event : Event Nat) (x : Nat),
    Run (step ⟨2, scanThreshold 2⟩) free (initial fun _ _ => 0) events w →
      step ⟨2, scanThreshold 2⟩ w event = some after →
      after.pool = w.pool ++ [x] → ∀ t, w.held t x = false := by
  intro always
  have replayed : (replay (step ⟨2, scanThreshold 2⟩) free movedBehindScan
    (initial fun _ _ => 0)).map (fun w =>
      (w.held 0 0, (step ⟨2, scanThreshold 2⟩ w (.move 1 true)).map fun after => decide
        (after.pool = w.pool ++ [0]))) = some (true, some true) := by
    decide +kernel
  obtain ⟨w, same, values⟩ := Option.map_eq_some_iff.mp replayed
  simp only [Prod.mk.injEq, decide_eq_true_eq, Option.map_eq_some_iff] at values
  obtain ⟨yes, after, stepped, pool⟩ := values
  have dropped := always movedBehindScan w after (.move 1 true) 0
    (run_of_replay movedBehindScan same) stepped pool 0
  rw [yes] at dropped
  cases dropped

end SetBench.HazardPtr
