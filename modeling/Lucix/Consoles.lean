import Lucix.Execution
import Lucix.ListHead
import Lucix.PrintkFormat

/-! The list of consoles of `kernel/console.c` and its users, `printf_` and `console_write`: every
registered console is handed what is printed from its registration on, in order. -/
namespace Lucix.Consoles
open Execution Printk Ring

variable {κ σ : Type*} [DecidableEq κ]

/-- The links of `console_list`, whose head is `none`, and the private data of each console. -/
structure State (κ σ : Type*) where
  links : Links (Option κ)
  data : κ → σ

section code
variable (putcharOf : κ → Option (UInt8 → σ → σ))

def registerConsole (con : κ) (s : State κ σ) : State κ σ :=
  { s with links := listAdd s.links (some con) none }

/-- A console without the function `putchar` is passed over. -/
def putOn (c : UInt8) (con : κ) (data : κ → σ) : κ → σ :=
  match putcharOf con with
  | some putchar => Function.update data con (putchar c (data con))
  | none => data

/-- The loop `list_for_each` of `console_putchar` from `pos` on; `none` where it is not over after so many
iterations. -/
def putcharLoop (c : UInt8) : Nat → Option κ → State κ σ → Option (State κ σ)
  | 0, _, _ => none
  | _ + 1, none, s => some s
  | fuel + 1, some con, s =>
      putcharLoop c fuel (s.links.next (some con)) { s with data := putOn putcharOf c con s.data }

def consolePutchar (fuel : Nat) (c : UInt8) (s : State κ σ) : Option (State κ σ) :=
  putcharLoop putcharOf c fuel (s.links.next none) s

/-- The function `console_write`, whose counter is an `int`. -/
def consoleWrite (fuel : Nat) (src : List UInt8) (s : State κ σ) : Option (Nat × State κ σ) :=
  if src.length < 2 ^ 31 then
    (src.foldl (fun s c => s.bind (consolePutchar putcharOf fuel c)) (some s)).map fun s => (src.length, s)
  else none

/-- A call that reaches the consoles. -/
inductive Call (κ δ : Type*) where
  | register (con : κ)
  | write (src : List UInt8)
  | print (format : List Piece) (va : List (Arg δ))

variable {δ : Type*} (floats : FloatOutput δ) (mem : Nat → List UInt8)

def step (fuel : Nat) (s : State κ σ) : Call κ δ → Option (State κ σ)
  | .register con => some (registerConsole con s)
  | .write src => (consoleWrite putcharOf fuel src s).map Prod.snd
  | .print format va =>
      (printf floats mem (fun c s => s.bind (consolePutchar putcharOf fuel c)) (spell format ++ [0]) va (some s)).bind
        Prod.snd

end code

/-! ### What the consoles are to see -/

/-- The registered consoles, the last one first, and what each of them has been handed. -/
structure Log (κ : Type*) where
  registered : List κ
  heard : κ → List UInt8

def Log.start : Log κ := ⟨[], fun _ => []⟩

def Log.say (text : List UInt8) (l : Log κ) : Log κ :=
  { l with heard := fun con => if con ∈ l.registered then l.heard con ++ text else l.heard con }

section spec
variable {δ : Type*} (floats : FloatOutput δ) (mem : Nat → List UInt8)

/-- `printf` does not hand on a null character. -/
def Log.next (l : Log κ) : Call κ δ → Log κ
  | .register con => { l with registered := con :: l.registered }
  | .write src => l.say src
  | .print format va => l.say (((render floats mem format va).getD []).filter (· ≠ 0))

/-- A console is registered once, the counter of `console_write` does not overflow, a format is one that
`_vsnprintf` reads to its end. -/
def Allowed (l : Log κ) : Call κ δ → Prop
  | .register con => con ∉ l.registered
  | .write src => src.length < 2 ^ 31
  | .print format va => (∀ p ∈ format, p.WellFormed) ∧ (render floats mem format va).isSome = true

instance (l : Log κ) (call : Call κ δ) : Decidable (Allowed floats mem l call) :=
  match call with
  | .register con => inferInstanceAs (Decidable (con ∉ l.registered))
  | .write src => inferInstanceAs (Decidable (src.length < 2 ^ 31))
  | .print _ _ => inferInstanceAs (Decidable (_ ∧ _))

end spec

/-- What the console's `putchar` makes of its data. -/
def hear (putcharOf : κ → Option (UInt8 → σ → σ)) (con : κ) (text : List UInt8) (d : σ) : σ :=
  match putcharOf con with
  | some putchar => text.foldl (fun d c => putchar c d) d
  | none => d

/-- The list holds the registered consoles, and each of them is where its text has taken it. -/
structure Follows (putcharOf : κ → Option (UInt8 → σ → σ)) (data₀ : κ → σ) (l : Log κ) (s : State κ σ) : Prop where
  nodup : l.registered.Nodup
  ring : s.links.IsRing none (l.registered.map some)
  data : ∀ con, s.data con = hear putcharOf con (l.heard con) (data₀ con)

section proofs
variable {putcharOf : κ → Option (UInt8 → σ → σ)} {data₀ : κ → σ} {l : Log κ} {s : State κ σ} {fuel : Nat}

omit [DecidableEq κ] in
theorem hear_append (con : κ) (text text' : List UInt8) (d : σ) :
    hear putcharOf con (text ++ text') d = hear putcharOf con text' (hear putcharOf con text d) := by
  unfold hear
  cases putcharOf con with
  | none => rfl
  | some putchar => exact List.foldl_append

theorem putOn_self (c : UInt8) (con : κ) (data : κ → σ) :
    putOn putcharOf c con data con = hear putcharOf con [c] (data con) := by
  unfold putOn hear
  cases putcharOf con with
  | none => rfl
  | some putchar => exact Function.update_self ..

theorem putOn_of_ne {con con' : κ} (h : con' ≠ con) (c : UInt8) (data : κ → σ) :
    putOn putcharOf c con data con' = data con' := by
  unfold putOn
  cases putcharOf con with
  | none => rfl
  | some putchar => exact Function.update_of_ne h ..

theorem putcharLoop_seg (c : UInt8) {cons : List κ} (hnodup : cons.Nodup) {a : Option κ}
    (hseg : s.links.Seg a (cons.map some) none) (hfuel : cons.length < fuel) :
    ∃ data, putcharLoop putcharOf c fuel (s.links.next a) s = some { s with data := data } ∧
      ∀ con, data con = if con ∈ cons then hear putcharOf con [c] (s.data con) else s.data con := by
  induction cons generalizing a s fuel with
  | nil =>
      obtain ⟨fuel, rfl⟩ := Nat.exists_eq_succ_of_ne_zero (Nat.ne_zero_of_lt hfuel)
      refine ⟨s.data, ?_, fun con => (if_neg List.not_mem_nil).symm⟩
      rw [show s.links.next a = none from hseg.1]
      rfl
  | cons con cons ih =>
      obtain ⟨fuel, rfl⟩ := Nat.exists_eq_succ_of_ne_zero (Nat.ne_zero_of_lt hfuel)
      obtain ⟨hnew, hrest⟩ := List.nodup_cons.mp hnodup
      obtain ⟨data, hloop, hdata⟩ := @ih { s with data := putOn putcharOf c con s.data } fuel hrest (some con) hseg.2
        (Nat.lt_of_succ_lt_succ hfuel)
      refine ⟨data, ?_, ?_⟩
      · rw [show s.links.next a = some con from hseg.1.1]
        exact hloop
      · intro con'
        rw [hdata con']
        dsimp only
        by_cases heq : con' = con
        · subst heq
          rw [if_neg hnew, if_pos List.mem_cons_self]
          exact putOn_self c con' s.data
        · rw [putOn_of_ne heq]
          simp only [List.mem_cons, heq, false_or]

theorem consolePutchar_follows (h : Follows putcharOf data₀ l s) (hfuel : l.registered.length < fuel) (c : UInt8) :
    ∃ t, consolePutchar putcharOf fuel c s = some t ∧ Follows putcharOf data₀ (l.say [c]) t := by
  obtain ⟨data, hloop, hdata⟩ := putcharLoop_seg c h.nodup h.ring.seg hfuel
  refine ⟨_, hloop, h.nodup, h.ring, fun con => ?_⟩
  dsimp only [Log.say]
  rw [hdata con, h.data con]
  split_ifs
  · exact (hear_append con _ _ _).symm
  · rfl

theorem Log.say_nil (l : Log κ) : l.say [] = l := by
  unfold say
  simp

theorem Log.say_say (text text' : List UInt8) (l : Log κ) : (l.say text).say text' = l.say (text ++ text') := by
  unfold say
  congr 1
  funext con
  dsimp only
  split_ifs
  · exact List.append_assoc ..
  · rfl

theorem foldl_follows (h : Follows putcharOf data₀ l s) (hfuel : l.registered.length < fuel) (text : List UInt8) :
    ∃ t, text.foldl (fun s c => s.bind (consolePutchar putcharOf fuel c)) (some s) = some t ∧
      Follows putcharOf data₀ (l.say text) t := by
  induction text generalizing l s with
  | nil => exact ⟨s, rfl, l.say_nil.symm ▸ h⟩
  | cons c text ih =>
      obtain ⟨t, ht, hfollows⟩ := consolePutchar_follows h hfuel c
      obtain ⟨u, hu, hrest⟩ := ih hfollows hfuel
      refine ⟨u, ?_, ?_⟩
      · rw [List.foldl_cons, Option.bind_some, ht]
        exact hu
      · rw [Log.say_say] at hrest
        exact hrest

end proofs

section printing
variable {δ τ : Type*} {floats : FloatOutput δ} {mem : Nat → List UInt8}

/-- `printf_` hands every character but the null character to `_putchar`. -/
theorem printf_spell {ps : List Piece} (hps : ∀ p ∈ ps, p.WellFormed) (putchar : UInt8 → τ → τ) (va : List (Arg δ))
    (s : τ) : printf floats mem putchar (spell ps ++ [0]) va s = (render floats mem ps va).map fun text =>
      (toInt32 text.length, (text.filter (· ≠ 0)).foldl (fun s c => putchar c s) s) := by
  rw [printf, vsnprintf_spell hps]
  refine Option.map_congr fun text _ => ?_
  have hstep : ∀ c i (s : τ), outChar putchar c i s = (fun s c => if c ≠ 0 then putchar c s else s) s c :=
    fun _ _ _ => rfl
  have hsend : (send (outChar putchar) text (0, s)).2 = _ := send_foldl hstep (0, s)
  rw [List.foldl_filter]
  simp only [decide_eq_true_eq]
  exact congrArg (Prod.mk _) hsend

end printing

section runs
variable {putcharOf : κ → Option (UInt8 → σ → σ)} {data₀ : κ → σ} {l : Log κ} {s : State κ σ} {fuel : Nat}
  {δ : Type*} {floats : FloatOutput δ} {mem : Nat → List UInt8}

theorem registerConsole_follows (h : Follows putcharOf data₀ l s) {con : κ} (hnew : con ∉ l.registered) :
    Follows putcharOf data₀ { l with registered := con :: l.registered } (registerConsole con s) := by
  refine ⟨List.nodup_cons.mpr ⟨hnew, h.nodup⟩, ?_, h.data⟩
  refine listAdd_ring h.ring ?_
  simpa using hnew

theorem step_follows (h : Follows putcharOf data₀ l s) {call : Call κ δ} (hallowed : Allowed floats mem l call)
    (hfuel : l.registered.length < fuel) : ∃ t, step putcharOf floats mem fuel s call = some t ∧
      Follows putcharOf data₀ (l.next floats mem call) t := by
  cases call with
  | register con => exact ⟨_, rfl, registerConsole_follows h hallowed⟩
  | write src =>
      obtain ⟨t, ht, hfollows⟩ := foldl_follows h hfuel src
      have hshort : src.length < 2 ^ 31 := hallowed
      refine ⟨t, ?_, hfollows⟩
      rw [step, consoleWrite, if_pos hshort, ht]
      rfl
  | print format va =>
      obtain ⟨hformat, hrender⟩ := hallowed
      obtain ⟨text, htext⟩ := Option.isSome_iff_exists.mp hrender
      obtain ⟨t, ht, hfollows⟩ := foldl_follows h hfuel (text.filter (· ≠ 0))
      refine ⟨t, ?_, ?_⟩
      · rw [step, printf_spell hformat, htext, Option.map_some, Option.bind_some]
        exact ht
      · rw [Log.next, htext]
        exact hfollows

theorem next_registered_le (l : Log κ) (call : Call κ δ) :
    (l.next floats mem call).registered.length ≤ l.registered.length + 1 := by
  cases call with
  | register con => exact le_rfl
  | write src => exact Nat.le_succ _
  | print format va => exact Nat.le_succ _

theorem run_follows_log (h : Follows putcharOf data₀ l s) {calls : List (Call κ δ)}
    (hallowed : Guarded (fun l call => some (Log.next floats mem l call)) (Allowed floats mem) l calls)
    (hfuel : l.registered.length + calls.length < fuel) :
    ∃ t, run (step putcharOf floats mem fuel) s calls = some t ∧
      Follows putcharOf data₀ (calls.foldl (Log.next floats mem) l) t := by
  induction calls generalizing l s with
  | nil => exact ⟨s, rfl, h⟩
  | cons call calls ih =>
      rw [List.length_cons] at hfuel
      have hgrow := @next_registered_le κ _ δ floats mem l call
      obtain ⟨t, ht, hfollows⟩ := step_follows h hallowed.1 (show l.registered.length < fuel by omega)
      obtain ⟨u, hu, hrest⟩ := ih hfollows hallowed.2 (by omega)
      exact ⟨u, by simp only [run, ht, Option.bind_some, hu], hrest⟩

/-- Links of an empty list. -/
def emptyList : Links (Option κ) := initListHead ⟨fun n => n, fun n => n⟩ none

/-- Whatever is registered and printed in whatever order, every call comes back, and the data of each
registered console is what its `putchar` makes, character by character, of everything that was printed from its
registration on; a console that is not registered or has no `putchar` is left alone. -/
theorem consoles_hear_everything (putcharOf : κ → Option (UInt8 → σ → σ)) (floats : FloatOutput δ)
    (mem : Nat → List UInt8) (data₀ : κ → σ) (calls : List (Call κ δ))
    (hallowed : Guarded (fun l call => some (Log.next floats mem l call)) (Allowed floats mem) Log.start calls)
    (hfuel : calls.length < fuel) :
    ∃ t, run (step putcharOf floats mem fuel) ⟨emptyList, data₀⟩ calls = some t ∧
      ∀ con, t.data con =
        hear putcharOf con ((calls.foldl (Log.next floats mem) Log.start).heard con) (data₀ con) := by
  have hstart : Follows putcharOf data₀ Log.start ⟨emptyList, data₀⟩ := by
    refine ⟨List.nodup_nil, Links.isRing_nil.mpr (initListHead_selfLinked _ _), fun con => ?_⟩
    unfold hear Log.start
    cases putcharOf con with
    | none => rfl
    | some putchar => rfl
  obtain ⟨t, ht, hfollows⟩ := run_follows_log hstart hallowed (by simpa [Log.start] using hfuel)
  exact ⟨t, ht, hfollows.data⟩

end runs

/-- A console that keeps what it is handed, and one without a `putchar`. -/
def keeper (con : Bool) : Option (UInt8 → List UInt8 → List UInt8) :=
  if con then some fun c kept => kept ++ [c] else none

theorem consoles_hear_everything_keeper :
    ∃ t : State Bool (List UInt8), run (step keeper noFloats (fun _ => []) 6) ⟨emptyList, fun _ => []⟩
        [.print widthFormat [.word 7], .register true, .register false, .write [104, 105],
          .print widthFormat [.word 42]] = some t ∧
      t.data true = "hin=  42".toUTF8.toList ∧ t.data false = [] := by
  obtain ⟨t, ht, hdata⟩ := consoles_hear_everything keeper noFloats (fun _ => []) (fun _ => [])
    [.print widthFormat [.word 7], .register true, .register false, .write [104, 105],
      .print widthFormat [.word 42]] (by decide +kernel) (by decide : 5 < 6)
  refine ⟨t, ht, ?_, ?_⟩
  · rw [hdata]
    decide +kernel
  · rw [hdata]
    decide +kernel

end Lucix.Consoles
