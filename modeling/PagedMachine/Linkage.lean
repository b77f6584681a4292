import PagedMachine.Program

/-!
Linking. The first module with an entry point goes to page 0 and the others, in their order, to the
pages from 1 on. On a page the instructions come first and the literals follow, each aligned to its
width. Problems are gathered and never stop the linking of what they do not concern.
-/

namespace PagedMachine

inductive LinkError where
  | noEntryPoint
  | multipleEntryPoints (modules : List String)
  | duplicateLabel (owner : String) (label : Label)
  | duplicateExport (label : Label) (first second : String)
  | undefinedExport (owner : String) (label : Label)
  | unresolvedImport (owner : String) (label : Label)
  | importDefinedLocally (owner : String) (label : Label)
  | moduleTooLarge (owner : String)
  | tooManyModules
  deriving DecidableEq, Repr

def LinkError.message : LinkError → String
  | .noEntryPoint => "no module has an entry point"
  | .multipleEntryPoints modules =>
    "more than one module has an entry point: " ++ ", ".intercalate modules
  | .duplicateLabel m l => s!"label `{l}` is defined more than once in module `{m}`"
  | .duplicateExport l first second => s!"label `{l}` is exported by both `{first}` and `{second}`"
  | .undefinedExport m l => s!"module `{m}` exports `{l}`, which it does not define"
  | .unresolvedImport m l => s!"module `{m}` imports `{l}`, which no module exports"
  | .importDefinedLocally m l => s!"module `{m}` imports `{l}` but also defines it"
  | .moduleTooLarge m => s!"module `{m}` does not fit in a single page"
  | .tooManyModules => "too many modules to fit in the address space"

-- A label with the address it is defined at, and the span of the instruction if it names one.
structure Definition where
  label : Label
  address : Address
  span : Option Span
  deriving DecidableEq, Repr

def instructionCapacity : Nat :=
  pageSize / instructionSize

def Module.placeInstructions (m : Module) (base : Address) : List (LabeledInstruction × Address) :=
  (m.instructions.take instructionCapacity).zipIdx.map fun (i, n) =>
    (i, base + BitVec.ofNat 32 (n * instructionSize))

-- Places literals from an offset on, each at the next multiple of its width, until one does not fit. The
-- second result tells whether all of them did.
def placeFrom (base : Address) :
    Nat → List LabeledLiteral → List (LabeledLiteral × Address) × Bool
  | _, [] => ([], true)
  | offset, l :: ls =>
    let start := alignUp offset l.width.bytes
    if start + l.width.bytes ≤ pageSize then
      let (placed, fits) := placeFrom base (start + l.width.bytes) ls
      ((l, base + BitVec.ofNat 32 start) :: placed, fits)
    else ([], false)

-- The literals of a module that fit on its page, and whether the whole module does. A module whose
-- instructions do not fit has no room for literals.
def Module.placeLiterals (m : Module) (base : Address) : List (LabeledLiteral × Address) × Bool :=
  if m.instructions.length ≤ instructionCapacity then
    placeFrom base (m.instructions.length * instructionSize) m.literals
  else ([], false)

-- Binds a definition, or sets it aside if its label is bound already.
def define (s : SymbolTable × Array Definition) (d : Definition) : SymbolTable × Array Definition :=
  match s.1.insert d.label d.address with
  | .ok table => (table, s.2)
  | .error _ => (s.1, s.2.push d)

structure Layout where
  page : Page
  -- Whether everything found room.
  fits : Bool
  -- The definitions that came too late.
  duplicates : List Definition

def definitions (is : List (LabeledInstruction × Address)) (ls : List (LabeledLiteral × Address)) :
    List Definition :=
  (is.flatMap fun (i, a) => i.labels.map (⟨·, a, i.span⟩))
    ++ ls.flatMap fun (l, a) => l.labels.map (⟨·, a, none⟩)

def Module.layOut (m : Module) (id : Nat) : Layout :=
  let base := pageBase id
  let is := m.placeInstructions base
  let (ls, fits) := m.placeLiterals base
  let (labels, duplicates) := (definitions is ls).foldl define (.empty, #[])
  { page :=
      { id
        name := m.name
        instructions :=
          (is.map fun (i, a) =>
            ⟨a, a + BitVec.ofNat 32 instructionSize, i.instruction, i.span⟩).toArray
        literals := ls.map fun (l, a) => ⟨a, l.value, l.width⟩
        labels
        imports := Std.ExtTreeSet.ofList m.imports compare }
    fits
    duplicates := duplicates.toList }

-- The problems that a module has on its own page, whatever the other modules are.
def Module.layoutErrors (m : Module) (l : Layout) : List (Diagnostic LinkError) :=
  (l.duplicates.map fun d => ⟨.duplicateLabel m.name d.label, d.span⟩)
    ++ (if l.fits then [] else [⟨.moduleTooLarge m.name, none⟩])
    ++ (m.imports.filter l.page.labels.contains).map (⟨.importDefinedLocally m.name ·, none⟩)

-- The result of linking: a program, and all problems found on the way to it.
structure Linkage where
  program : Program
  diagnostics : Array (Diagnostic LinkError)

def Linkage.report (k : Linkage) (e : LinkError) : Linkage :=
  { k with diagnostics := k.diagnostics.push ⟨e, none⟩ }

-- Records an export of a module that has been laid out. The first module to export a label keeps it. A label
-- that was lost because the module does not fit is not reported again.
def Linkage.addExport (m : Module) (l : Layout) (k : Linkage) (label : Label) : Linkage :=
  match l.page.labels.get? label with
  | none => if l.fits then k.report (.undefinedExport m.name label) else k
  | some a =>
    match k.program.exports.insert label a with
    | .ok exports => { k with program := { k.program with exports } }
    | .error existing =>
      let first := ((k.program.pageAt? existing).map (·.name)).getD ""
      k.report (.duplicateExport label first m.name)

def Linkage.addModule (k : Linkage) (assigned : Nat × Module) : Linkage :=
  let (id, m) := assigned
  let l := m.layOut id
  let k := { k with diagnostics := k.diagnostics ++ m.layoutErrors l }
  let k := m.exports.foldl (Linkage.addExport m l) k
  { k with program := k.program.addPage l.page }

-- The modules that get a page, with its number: page 0 for the first entry point, and the pages from 1 on
-- for the others, as far as there are pages.
def assignPages (modules : List Module) : List (Nat × Module) :=
  let entry := modules.find? (·.isEntry)
  let others := modules.eraseP (·.isEntry)
  entry.toList.map ((0, ·)) ++ ((others.take maxPage).zipIdx 1).map fun (m, id) => (id, m)

def assignmentErrors (modules : List Module) : List LinkError :=
  let entries := modules.filter (·.isEntry)
  (match entries with
    | [] => [.noEntryPoint]
    | [_] => []
    | _ => [.multipleEntryPoints (entries.map (·.name))])
    ++ if (modules.eraseP (·.isEntry)).length ≤ maxPage then [] else [.tooManyModules]

-- The imports that no page can satisfy, page by page and in the order of labels.
def Program.unresolvedImports (p : Program) : List LinkError :=
  p.pages.flatMap fun page =>
    (page.imports.toList.filter fun l => !page.labels.contains l && !p.exports.contains l).map
      (.unresolvedImport page.name ·)

def link (modules : List Module) : Linkage :=
  let start : Linkage := ⟨.empty, ((assignmentErrors modules).map (⟨·, none⟩)).toArray⟩
  let k := (assignPages modules).foldl Linkage.addModule start
  k.program.unresolvedImports.foldl Linkage.report k

def Linkage.isRunnable (k : Linkage) : Bool :=
  k.diagnostics.isEmpty && k.program.entry.isSome

end PagedMachine
