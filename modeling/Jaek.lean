import Jaek.Lowered.LIR
import Jaek.Lowered.LIRSeq
import Jaek.Lowered.BlockGraph
import Jaek.Lowered.BasicBlocks
import Jaek.Lowered.Trace
import Jaek.Lowered.BlockReordering
import Jaek.Assembly.Instruction
import Jaek.Assembly.LVA.CFGBuilder
import Jaek.Assembly.LVA.Exact
import Jaek.Assembly.LVA.LiveVariableAnalysis
import Jaek.Semantics.Bytes
import Jaek.Assembly.Machine
import Jaek.Assembly.UseDef
import Jaek.Assembly.Ralloc.InterferenceGraph
import Jaek.Assembly.Ralloc.Worklist
import Jaek.Assembly.Ralloc.Bookkeeping
import Jaek.Assembly.Tile
import Jaek.Assembly.TileCorrect
import Jaek.Data.LinkedMap
import Jaek.Data.LongestMatch
import Jaek.Optimize.CFG.CFGNode
import Jaek.Optimize.CFG.MatchMaker
import Jaek.Optimize.CFG.CFGBuilder
import Jaek.Lowered.Printing
import Jaek.Optimize.CFG.CFGDestroyer
import Jaek.Optimize.CFG.KeptStmts
import Jaek.Optimize.CFG.RoundTrip
import Jaek.Data.PrefixCode
import Jaek.AST
import Jaek.Typechecker.EtaType
import Jaek.Typechecker.Context
import Jaek.IR.Mangling
import Jaek.Kompiler
import Jaek.IR.Records
import Jaek.Data.Except
import Jaek.Kompiler.Layout
import Jaek.Kompiler.Dependencies
import Jaek.Semantics.Worklist
import Jaek.Semantics.DepthFirst
import Jaek.Semantics.Liveness
import Jaek.Optimize.Dataflow.CFGFlow
import Jaek.Optimize.Dataflow.Element
import Jaek.Data.OptionList
import Jaek.IR.Optimize.ConstantFolder
import Jaek.IR.Optimize.FoldUnit
import Jaek.IR.Optimize.FoldRun
import Jaek.IR.Mid
import Jaek.IR.IRLowerer
import Jaek.IR.LowerShape
import Jaek.IR.Commutes
import Jaek.IR.Effects
import Jaek.IR.LowerRun
import Jaek.IR.LowerSound
import Jaek.IR.Lowering
import Jaek.IR.MidRules
import Jaek.IR.IRTranslator
import Jaek.IR.GlobalsTouched
import Jaek.Assembly.Displacement
import Jaek.Lexer.LexUtil
import Jaek.Lexer.Relexing
import Jaek.Lexer.Scanner
import Jaek.Lexer.Numerals
import Jaek.Parser.GlobalDecl
import Jaek.IR.GlobalData
import Jaek.IR.Arrays
import Jaek.IR.StringLit
import Jaek.Semantics.Decision
import Jaek.IR.Decides
import Jaek.IR.Renaming
import Jaek.IR.FreshNames
import Jaek.IR.Control
import Jaek.Optimize.Dataflow.CondConstProp
import Jaek.Optimize.Dataflow.Convergence
import Jaek.Semantics.GenKill
import Jaek.Optimize.Dataflow.Properties
import Jaek.Optimize.Dataflow.Fixpoint
import Jaek.Optimize.CFG.RemoveAndLink
import Jaek.Optimize.CFG.Edits
import Jaek.Optimize.Dataflow.DeadCodeRem
import Jaek.Optimize.Dataflow.CopyProp
import Jaek.Optimize.Dataflow.SolverFixpoint
import Jaek.Optimize.CFG.Semantics
import Jaek.Optimize.CFG.Rewriting
import Jaek.Optimize.CFG.Contract
import Jaek.Optimize.Dataflow.CopySound
import Jaek.Optimize.Dataflow.CopyRounds
import Jaek.Optimize.Dataflow.CallResults
import Jaek.Optimize.Dataflow.DeadAssigns
import Jaek.Semantics.Coloring
import Jaek.Assembly.Ralloc.AssignColors
import Jaek.Optimize.Dataflow.StepLimit
import Jaek.Assembly.Ralloc.Build
import Jaek.Assembly.Ralloc.ChitLoop
import Jaek.Optimize.Dataflow.CopyTermination
import Jaek.Optimize.Dataflow.CopyRuns
import Jaek.Assembly.Ralloc.TrivialSimulation
import Jaek.Assembly.Ralloc.TiledBodies
import Jaek.Assembly.Bodies
