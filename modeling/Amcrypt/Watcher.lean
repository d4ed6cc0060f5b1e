/-
  Amcrypt.Watcher — the `DebuggerDetector` (`watcher.py`): five heuristics over the state of
  the interpreter, and what they detect.

  A heuristic returns or raises, and `is_debugging` takes either a `True` or an exception
  for a debugger. `check_frames`: the walk up the stack stops exactly at a frame whose
  module is a listed one or lies under one in its dotted name, or whose file name holds a
  marker. `detection`: with default settings the five together detect what the module
  documents, unless the breakpoint hook or `sys.monitoring` decide: of the first only the
  letters `pdb` are looked at, and the check of the second probes an attribute that
  `sys.monitoring` does not have and never gets further.

  Strings are lists of characters; `lower` is `str.lower`, and nothing is assumed of it.
-/

import Amcrypt.Core.Necromancer
import Amcrypt.Lib.Dotted
import Amcrypt.Reference

namespace Amcrypt.Watcher

open Lib Lib.Dotted

abbrev Str := List Char

def dot : Char := '.'

/-- `_DEBUGGER_MODULES`. -/
def debuggerModules : List Str :=
  ["pdb".toList, "pdbpp".toList, "ipdb".toList, "ipdb.__main__".toList, "pydevd".toList, "pydevd_file_utils".toList,
    "debugpy".toList, "debugpy.adapter".toList, "debugpy.pydevd".toList, "ptvsd".toList, "ptvsd.adapter".toList,
    "pyringe".toList, "pyringe.debugger".toList, "pydevd_py3k".toList, "pydevd_tracing".toList,
    "_pydevd_bundle.pydevd_xml".toList, "_pydevd_bundle.pydevd_resolver".toList]

/-- The markers that `_check_frames_fn` looks for in a file name. -/
def debuggerPaths : List Str :=
  ["pydevd".toList, "debugpy".toList, "ptvsd".toList, "ipdb".toList, "pyringe".toList]

/-! ## The interpreter -/

/-- A frame's `f_globals["__name__"]`: absent, a string, or anything else. -/
inductive ModuleName where
  | missing
  | str (name : Str)
  | other
  deriving DecidableEq

structure Frame where
  moduleName : ModuleName
  filename : Str

/-- `sys.monitoring`: the attributes that are not `None`, with the value of each that is an
    int, and `get_tool`. -/
structure Monitoring where
  attrs : List (Str × Option Int)
  getTool : Int → Except PyErr (Option Str)

/-- What the heuristics look at; the stack from the innermost frame outwards. -/
structure Interpreter (Fn : Type) where
  trace : Option Fn
  profile : Option Fn
  stack : List Frame
  debug : Nat
  /-- `PYTHONBREAKPOINT`. -/
  breakpoint : Option Str
  /-- Absent before Python 3.12. -/
  monitoring : Option Monitoring

/-! ## The heuristics -/

variable {Fn : Type} (lower : Str → Str)

def checkTraceFn (py : Interpreter Fn) : Except PyErr Bool :=
  match py.trace with
  | none => .ok false
  | some _ => .ok true

def checkProfileFn (py : Interpreter Fn) : Except PyErr Bool := .ok py.profile.isSome

/-- `f_globals.get("__name__", "")`, which must have a `split`. -/
def Frame.module (frame : Frame) : Except PyErr Str :=
  match frame.moduleName with
  | .missing => .ok []
  | .str name => .ok name
  | .other => .error (.other "AttributeError")

/-- The loop over the prefixes of a module name. -/
def listed (module : Str) : Bool :=
  let parts := module.splitOn dot
  (List.range parts.length).any fun i => debuggerModules.contains ([dot].intercalate (parts.take (i + 1)))

/-- The loop over the markers. -/
def marked (filename : Str) : Bool := debuggerPaths.any fun dbg => decide (dbg <:+: filename)

/-- `_check_frames_fn` from a frame outwards. -/
def checkFramesFn : List Frame → Except PyErr Bool
  | [] => .ok false
  | frame :: back => do
    let module ← frame.module
    if listed module then pure true
    else if marked (lower frame.filename) then pure true
    else checkFramesFn back

def checkFlagsFn (py : Interpreter Fn) : Except PyErr Bool :=
  if py.debug ≠ 0 then .ok true
  else
    let bp := py.breakpoint.getD []
    .ok (decide (bp ≠ []) && decide (bp ≠ "0".toList) && decide ("pdb".toList <:+: lower bp))

/-- One attribute of `sys.monitoring`: a tool id whose `get_tool` does not raise. -/
def occupied (monitoring : Monitoring) (attr : Str × Option Int) : Bool :=
  (decide ("DEBUGGER_ID".toList <+: attr.1) || decide ("COVERAGE".toList <+: attr.1)) &&
    match attr.2 with
    | some toolId => match monitoring.getTool toolId with
      | .ok _ => true
      | .error _ => false
    | none => false

def checkMonitoringFn (py : Interpreter Fn) : Except PyErr Bool :=
  match py.monitoring with
  | none => .ok false
  | some monitoring =>
    if monitoring.attrs.any fun attr => decide (attr.1 = "USE_TOOL_ID".toList) then
      .ok (monitoring.attrs.any (occupied monitoring))
    else .ok false

/-! ## `is_debugging` -/

/-- `DebuggerDetector.__init__`; a custom check by what it returns or raises. -/
structure DebuggerDetector where
  checkTrace : Bool := true
  checkProfile : Bool := true
  checkFrames : Bool := true
  checkFlags : Bool := true
  checkMonitoring : Bool := true
  customChecks : List (Except PyErr Bool) := []

/-- The heuristics that are switched on, in order. -/
def DebuggerDetector.checks (self : DebuggerDetector) (py : Interpreter Fn) : List (Except PyErr Bool) :=
  (if self.checkTrace then [checkTraceFn py] else []) ++
    (if self.checkProfile then [checkProfileFn py] else []) ++
    (if self.checkFrames then [checkFramesFn lower py.stack] else []) ++
    (if self.checkFlags then [checkFlagsFn lower py] else []) ++
    (if self.checkMonitoring then [checkMonitoringFn py] else []) ++ self.customChecks

/-- The loop over the checks: `True` or an exception ends it. -/
def anyCheck : List (Except PyErr Bool) → Bool
  | [] => false
  | .ok true :: _ => true
  | .ok false :: checks => anyCheck checks
  | .error _ :: _ => true

def DebuggerDetector.isDebugging (self : DebuggerDetector) (py : Interpreter Fn) : Bool :=
  anyCheck (self.checks lower py)

/-! ## The frame walk -/

variable {lower}

/-- The module's name, as a string. -/
def Frame.name (frame : Frame) : Str :=
  match frame.moduleName with
  | .str name => name
  | _ => []

/-- The frame is of a listed debugger module or under one, or its file lies on a debugger's path. -/
def FromDebugger (lower : Str → Str) (frame : Frame) : Prop :=
  (∃ d ∈ debuggerModules, frame.name = d ∨ d ++ [dot] <+: frame.name) ∨
    ∃ marker ∈ debuggerPaths, marker <:+: lower frame.filename

instance (lower : Str → Str) (frame : Frame) : Decidable (FromDebugger lower frame) :=
  inferInstanceAs (Decidable ((∃ d ∈ debuggerModules, frame.name = d ∨ d ++ [dot] <+: frame.name) ∨
    ∃ marker ∈ debuggerPaths, marker <:+: lower frame.filename))

theorem listed_iff {module : Str} :
    listed module = true ↔ ∃ d ∈ debuggerModules, module = d ∨ d ++ [dot] <+: module := by
  have hmem : listed module = true ↔ ∃ d ∈ debuggerModules, d ∈ ancestors dot module := by
    simp only [listed, ancestors, List.any_eq_true, List.mem_map, List.contains_iff_mem]
    refine ⟨?_, ?_⟩
    · intro hx
      obtain ⟨i, hi, hd⟩ := hx
      exact ⟨_, hd, i, hi, rfl⟩
    · intro hx
      obtain ⟨d, hd, i, hi, rfl⟩ := hx
      exact ⟨i, hi, hd⟩
  rw [hmem]
  simp only [mem_ancestors, Under]

theorem marked_iff {filename : Str} : marked filename = true ↔ ∃ marker ∈ debuggerPaths, marker <:+: filename := by
  simp only [marked, List.any_eq_true, decide_eq_true_eq]

/-- One frame of the walk. -/
theorem checkFramesFn_cons (lower : Str → Str) {frame : Frame} (h : frame.moduleName ≠ .other) (back : List Frame) :
    (FromDebugger lower frame → checkFramesFn lower (frame :: back) = .ok true) ∧
      (¬ FromDebugger lower frame → checkFramesFn lower (frame :: back) = checkFramesFn lower back) := by
  have hname : frame.module = .ok frame.name := by
    unfold Frame.module Frame.name
    cases hm : frame.moduleName with
    | other => exact absurd hm h
    | _ => rfl
  unfold FromDebugger
  rw [← listed_iff, ← marked_iff, checkFramesFn, hname, ok_bind]
  refine ⟨?_, ?_⟩
  · intro hx
    rcases hx with hl | hm
    · rw [if_pos hl]
      rfl
    · rw [if_pos hm]
      split <;> rfl
  · intro hx
    obtain ⟨hl, hm⟩ := not_or.mp hx
    rw [if_neg hl, if_neg hm]

/-- The walk over any stack whose module names are strings. -/
theorem check_frames (lower : Str → Str) (stack : List Frame) (h : ∀ frame ∈ stack, frame.moduleName ≠ .other) :
    (checkFramesFn lower stack = .ok true ↔ ∃ frame ∈ stack, FromDebugger lower frame) ∧
      ∃ found, checkFramesFn lower stack = .ok found := by
  induction stack with
  | nil => exact ⟨by simp [checkFramesFn], false, rfl⟩
  | cons frame back ih =>
    obtain ⟨ih, found, hfound⟩ := ih fun f hf => h f (List.mem_cons_of_mem frame hf)
    obtain ⟨hyes, hno⟩ := checkFramesFn_cons lower (h frame List.mem_cons_self) back
    by_cases hd : FromDebugger lower frame
    · rw [hyes hd]
      exact ⟨⟨fun _ => ⟨frame, List.mem_cons_self, hd⟩, fun _ => rfl⟩, true, rfl⟩
    · rw [hno hd]
      refine ⟨?_, found, hfound⟩
      rw [ih]
      simp [hd]

/-! ## What is documented, and what is detected -/

/-- `PYTHONBREAKPOINT` names an entry point of a listed debugger module. -/
def NamesEntryPoint (bp : Str) : Prop := ∃ d ∈ debuggerModules, ∃ entry, entry ≠ [] ∧ bp = d ++ dot :: entry

/-- A tool is registered as the debugger or for coverage. -/
def Monitoring.Registered (monitoring : Monitoring) : Prop :=
  ∃ slot ∈ ["DEBUGGER_ID".toList, "COVERAGE_ID".toList], ∃ toolId tool,
    (slot, some toolId) ∈ monitoring.attrs ∧ monitoring.getTool toolId = .ok (some tool)

/-- `sys.monitoring` as CPython has it, as far as the detector probes it. -/
structure Monitoring.CPython (monitoring : Monitoring) : Prop where
  debugger : ("DEBUGGER_ID".toList, some 0) ∈ monitoring.attrs
  coverage : ("COVERAGE_ID".toList, some 1) ∈ monitoring.attrs
  probed : ∀ attr ∈ monitoring.attrs, attr.1 = "USE_TOOL_ID".toList ∨ "DEBUGGER_ID".toList <+: attr.1 ∨
    "COVERAGE".toList <+: attr.1 → attr = ("DEBUGGER_ID".toList, some 0) ∨ attr = ("COVERAGE_ID".toList, some 1)
  slots : ∀ toolId, 0 ≤ toolId → toolId < 6 → ∃ tool, monitoring.getTool toolId = .ok tool

/-- The indicators that are looked at as they are documented. -/
def Visible (lower : Str → Str) (py : Interpreter Fn) : Prop :=
  py.trace.isSome = true ∨ py.profile.isSome = true ∨ (∃ frame ∈ py.stack, FromDebugger lower frame) ∨ py.debug ≠ 0

/-- The indicators that are documented besides. -/
def Hooked (py : Interpreter Fn) : Prop :=
  (∃ bp, py.breakpoint = some bp ∧ NamesEntryPoint bp) ∨ ∃ monitoring, py.monitoring = some monitoring ∧
    monitoring.Registered

/-- What is taken for an indicator besides: a breakpoint hook with `pdb` in it, and a frame
    whose module name is no string. -/
def Suspected (lower : Str → Str) (py : Interpreter Fn) : Prop :=
  (∃ bp, py.breakpoint = some bp ∧ bp ≠ [] ∧ bp ≠ "0".toList ∧ "pdb".toList <:+: lower bp) ∨
    ∃ frame ∈ py.stack, frame.moduleName = .other

theorem anyCheck_iff {checks : List (Except PyErr Bool)} : anyCheck checks = true ↔ ∃ c ∈ checks, c ≠ .ok false := by
  induction checks with
  | nil => simp [anyCheck]
  | cons c checks ih =>
    cases c with
    | error e => simp [anyCheck]
    | ok b => cases b <;> simp [anyCheck, ih]

/-- The walk alarms at a debugger's frame, and at a module name that it cannot split. -/
theorem checkFramesFn_alarm {stack : List Frame} :
    checkFramesFn lower stack ≠ .ok false ↔
      (∃ frame ∈ stack, FromDebugger lower frame) ∨ ∃ frame ∈ stack, frame.moduleName = .other := by
  induction stack with
  | nil => simp [checkFramesFn]
  | cons frame back ih =>
    by_cases ho : frame.moduleName = .other
    · have hraise : checkFramesFn lower (frame :: back) = .error (.other "AttributeError") := by
        rw [checkFramesFn, Frame.module, ho]
        rfl
      rw [hraise]
      exact ⟨fun _ => .inr ⟨frame, List.mem_cons_self, ho⟩, fun _ => by simp⟩
    · obtain ⟨hyes, hno⟩ := checkFramesFn_cons lower ho back
      by_cases hd : FromDebugger lower frame
      · rw [hyes hd]
        exact ⟨fun _ => .inl ⟨frame, List.mem_cons_self, hd⟩, fun _ => by simp⟩
      · rw [hno hd, ih]
        simp [hd, ho]

theorem checkFlagsFn_alarm {py : Interpreter Fn} :
    checkFlagsFn lower py ≠ .ok false ↔
      py.debug ≠ 0 ∨ ∃ bp, py.breakpoint = some bp ∧ bp ≠ [] ∧ bp ≠ "0".toList ∧ "pdb".toList <:+: lower bp := by
  unfold checkFlagsFn
  by_cases hd : py.debug = 0
  · cases hb : py.breakpoint with
    | none => simp [hd]
    | some bp => simp [hd]
  · simp [hd]

/-- The monitoring check never gets past the attribute that is not there. -/
theorem checkMonitoringFn_dead {py : Interpreter Fn}
    (hpython : ∀ monitoring, py.monitoring = some monitoring → monitoring.CPython) :
    checkMonitoringFn py = .ok false := by
  unfold checkMonitoringFn
  cases hm : py.monitoring with
  | none => rfl
  | some monitoring =>
    have hno : (monitoring.attrs.any fun attr => decide (attr.1 = "USE_TOOL_ID".toList)) = false := by
      rw [List.any_eq_false]
      intro attr hattr
      rw [decide_eq_true_eq]
      intro hprobe
      rcases (hpython monitoring hm).probed attr hattr (.inl hprobe) with rfl | rfl
      · exact absurd hprobe (by decide)
      · exact absurd hprobe (by decide)
    dsimp only
    rw [hno]
    rfl

/-- What `is_debugging` detects with default settings. -/
theorem isDebugging_iff {py : Interpreter Fn}
    (hpython : ∀ monitoring, py.monitoring = some monitoring → monitoring.CPython) :
    ({} : DebuggerDetector).isDebugging lower py = true ↔ Visible lower py ∨ Suspected lower py := by
  have htrace : checkTraceFn py ≠ .ok false ↔ py.trace.isSome = true := by
    unfold checkTraceFn
    cases py.trace <;> simp
  have hprofile : checkProfileFn py ≠ .ok false ↔ py.profile.isSome = true := by
    unfold checkProfileFn
    cases py.profile <;> simp
  have hchecks : ({} : DebuggerDetector).checks lower py =
      [checkTraceFn py, checkProfileFn py, checkFramesFn lower py.stack, checkFlagsFn lower py,
        checkMonitoringFn py] := rfl
  rw [DebuggerDetector.isDebugging, anyCheck_iff, hchecks]
  simp only [List.exists_mem_cons_iff, List.not_mem_nil, false_and, exists_false, or_false, htrace, hprofile,
    checkFramesFn_alarm, checkFlagsFn_alarm, checkMonitoringFn_dead hpython, ne_eq, not_true_eq_false, Visible,
    Suspected]
  simp only [or_assoc, or_left_comm, or_comm]

/-- Default settings detect what is documented exactly if an indicator is visible, or
    what is suspected besides is what is documented besides. -/
theorem detection (lower : Str → Str) {py : Interpreter Fn}
    (hpython : ∀ monitoring, py.monitoring = some monitoring → monitoring.CPython) :
    (({} : DebuggerDetector).isDebugging lower py = true ↔ Visible lower py ∨ Hooked py) ↔
      (Visible lower py ∨ (Suspected lower py ↔ Hooked py)) := by
  rw [isDebugging_iff hpython]
  by_cases hv : Visible lower py
  · simp [hv]
  · simp [hv]

/-- A visible debugger ends `revive` before it looks at the envelope. -/
theorem revive_trapped {B : Backend} {py : Interpreter Fn}
    (hpython : ∀ monitoring, py.monitoring = some monitoring → monitoring.CPython) (hv : Visible lower py)
    {self : Core.Necromancer} (hanti : self.antiDebug = true) (corpse : Bytes) (a : Core.ReviveOptions) (now : ℚ) :
    Core.revive B corpse a ⟨({} : DebuggerDetector).isDebugging lower py, now⟩ self =
      ⟨.error Core.debuggerDetected, self, []⟩ := by
  have hdetected : ({} : DebuggerDetector).isDebugging lower py = true := (isDebugging_iff hpython).mpr (.inl hv)
  have hgate : Core.checkDebugger (({} : DebuggerDetector).isDebugging lower py) self =
      ⟨.error Core.debuggerDetected, self, []⟩ := by
    rw [Core.checkDebugger_apply, hdetected, hanti]
    rfl
  rw [Core.revive, Method.bind_error hgate]

/-! ## Runs -/

section
open Reference

/-- `str.lower` on ASCII. -/
def asciiLower (s : Str) : Str := s.map Char.toLower

/-- CPython 3.12 with these tools in its slots. -/
def cpython (tools : Int → Option Str) : Monitoring where
  attrs := [("COVERAGE_ID".toList, some 1), ("DEBUGGER_ID".toList, some 0), ("OPTIMIZER_ID".toList, some 5),
    ("PROFILER_ID".toList, some 2), ("get_tool".toList, none), ("use_tool_id".toList, none)]
  getTool toolId :=
    if 0 ≤ toolId ∧ toolId < 6 then .ok (tools toolId) else .error (.valueError "invalid tool")

theorem cpython_documented (tools : Int → Option Str) : (cpython tools).CPython := by
  refine ⟨?_, ?_, ?_, ?_⟩
  · exact List.mem_cons_of_mem _ List.mem_cons_self
  · exact List.mem_cons_self
  · exact (by decide : ∀ attr ∈ (cpython fun _ => none).attrs, attr.1 = "USE_TOOL_ID".toList ∨
      "DEBUGGER_ID".toList <+: attr.1 ∨ "COVERAGE".toList <+: attr.1 →
        attr = ("DEBUGGER_ID".toList, some 0) ∨ attr = ("COVERAGE_ID".toList, some 1))
  · intro toolId h0 h6
    exact ⟨tools toolId, if_pos ⟨h0, h6⟩⟩

/-- A plain process: one frame of the application, and these two settings. -/
def process (breakpoint : Option Str) (tools : Int → Option Str) : Interpreter Unit where
  trace := none
  profile := none
  stack := [⟨.str "my.pdb".toList, "/srv/pdbx.py".toList⟩]
  debug := 0
  breakpoint := breakpoint
  monitoring := some (cpython tools)

/-- A coverage tool in its slot. -/
def covered : Int → Option Str := fun toolId => if toolId = 1 then some "coverage".toList else none

theorem not_entry : ¬ NamesEntryPoint "notpdb.hook".toList := by
  have hno : ∀ d ∈ debuggerModules, ¬ d <+: "notpdb.hook".toList := by decide
  intro h
  obtain ⟨d, hd, entry, -, heq⟩ := h
  exact hno d hd ⟨dot :: entry, heq.symm⟩

/-- A coverage tool and a `debugpy` hook go unseen; a hook that is no debugger's does not. -/
theorem detection_run :
    (({} : DebuggerDetector).isDebugging asciiLower (process none covered) = false ∧ Hooked (process none covered)) ∧
      (({} : DebuggerDetector).isDebugging asciiLower (process (some "debugpy.breakpoint".toList) fun _ => none) =
          false ∧ Hooked (process (some "debugpy.breakpoint".toList) fun _ => none)) ∧
      (({} : DebuggerDetector).isDebugging asciiLower (process (some "notpdb.hook".toList) fun _ => none) = true ∧
        ¬ (Visible asciiLower (process (some "notpdb.hook".toList) fun _ => none) ∨
          Hooked (process (some "notpdb.hook".toList) fun _ => none))) := by
  refine ⟨⟨by decide +kernel, ?_⟩, ⟨by decide +kernel, ?_⟩, by decide +kernel, ?_⟩
  · refine .inr ⟨_, rfl, "COVERAGE_ID".toList, by simp, 1, "coverage".toList, List.mem_cons_self, rfl⟩
  · refine .inl ⟨_, rfl, "debugpy".toList, by decide, "breakpoint".toList, by decide, by decide⟩
  · intro h
    rcases h with hv | hentry | hregistered
    · exact absurd hv (by unfold Visible; decide)
    · obtain ⟨bp, hbp, hnames⟩ := hentry
      obtain rfl := Option.some.inj hbp
      exact not_entry hnames
    · obtain ⟨m, hm, slot, -, toolId, tool, -, htool⟩ := hregistered
      obtain rfl := Option.some.inj hm
      unfold cpython at htool
      dsimp only at htool
      split at htool
      · cases htool
      · cases htool

/-- A process with a coverage tool and a hook into `pdb`. -/
theorem detection_hooked_run :
    ({} : DebuggerDetector).isDebugging asciiLower (process (some "pdb.set_trace".toList) covered) = true ↔
      Visible asciiLower (process (some "pdb.set_trace".toList) covered) ∨
        Hooked (process (some "pdb.set_trace".toList) covered) := by
  have hpython : ∀ m, (process (some "pdb.set_trace".toList) covered).monitoring = some m → m.CPython := by
    intro m hm
    obtain rfl := Option.some.inj hm
    exact cpython_documented covered
  refine (detection asciiLower hpython).mpr (.inr ⟨fun _ => ?_, fun _ => ?_⟩)
  · exact .inl ⟨_, rfl, "pdb".toList, by decide, "set_trace".toList, by decide, by decide⟩
  · exact .inl ⟨_, rfl, by decide, by decide, by decide⟩

/-- Modules that only begin or end like a listed one, and one under a listed one. -/
theorem check_frames_run :
    checkFramesFn asciiLower [⟨.str "my.pdb".toList, []⟩, ⟨.str "pdbx".toList, []⟩] ≠ .ok true ∧
      checkFramesFn asciiLower [⟨.str "my.pdb".toList, []⟩, ⟨.str "debugpy.server.api".toList, []⟩] = .ok true := by
  have hstr : ∀ a b : Str, ∀ frame ∈ [(⟨.str a, []⟩ : Frame), ⟨.str b, []⟩], frame.moduleName ≠ .other := by
    simp
  refine ⟨?_, ?_⟩
  · rw [ne_eq, (check_frames asciiLower _ (hstr _ _)).1]
    decide
  · rw [(check_frames asciiLower _ (hstr _ _)).1]
    decide

end

end Amcrypt.Watcher
