import Fool.Main
import Fool.Proofs.Assembly.Agree
import Fool.Proofs.Assembly.Reading
import Fool.Proofs.Assembly.RoundTrip
import Fool.Proofs.Assembly.Words
import Fool.Proofs.Binding.Alongside
import Fool.Proofs.Binding.Budget
import Fool.Proofs.Binding.Clean
import Fool.Proofs.Binding.Complete
import Fool.Proofs.Binding.Context
import Fool.Proofs.Binding.Counted
import Fool.Proofs.Binding.Effects
import Fool.Proofs.Binding.Elsewhere
import Fool.Proofs.Binding.Faults
import Fool.Proofs.Binding.Frame
import Fool.Proofs.Binding.Inside
import Fool.Proofs.Binding.Known
import Fool.Proofs.Binding.Levels
import Fool.Proofs.Binding.Lexical
import Fool.Proofs.Binding.Limits
import Fool.Proofs.Binding.Locals
import Fool.Proofs.Binding.Moments
import Fool.Proofs.Binding.Order
import Fool.Proofs.Binding.Places
import Fool.Proofs.Binding.Plain
import Fool.Proofs.Binding.Reached
import Fool.Proofs.Binding.Reports
import Fool.Proofs.Binding.Scopes
import Fool.Proofs.Binding.Shapes
import Fool.Proofs.Binding.Sites
import Fool.Proofs.Binding.Stack
import Fool.Proofs.Binding.Steps
import Fool.Proofs.Binding.Tells
import Fool.Proofs.Binding.Traceless
import Fool.Proofs.Binding.Twins
import Fool.Proofs.Binding.Walk
import Fool.Proofs.Codegen.Flow
import Fool.Proofs.Codegen.Guarded
import Fool.Proofs.Codegen.Labels
import Fool.Proofs.Codegen.Pieces
import Fool.Proofs.Codegen.Plain
import Fool.Proofs.Codegen.Shape
import Fool.Proofs.Codegen.Stretches
import Fool.Proofs.Codegen.Total
import Fool.Proofs.Codegen.Walks
import Fool.Proofs.Codegen.Within
import Fool.Proofs.Machine.Apart
import Fool.Proofs.Machine.Backward
import Fool.Proofs.Machine.Bare
import Fool.Proofs.Machine.Config
import Fool.Proofs.Machine.Does
import Fool.Proofs.Machine.Fault
import Fool.Proofs.Machine.Limit
import Fool.Proofs.Machine.Load
import Fool.Proofs.Machine.Nested
import Fool.Proofs.Machine.Onward
import Fool.Proofs.Machine.Steady
import Fool.Proofs.Machine.Trail
import Fool.Proofs.Machine.View
import Fool.Proofs.Machine.Will
import Fool.Proofs.Parse.Accept
import Fool.Proofs.Parse.Balance
import Fool.Proofs.Parse.Decls
import Fool.Proofs.Parse.Differ
import Fool.Proofs.Parse.Exprs
import Fool.Proofs.Parse.Grammar
import Fool.Proofs.Parse.Owned
import Fool.Proofs.Parse.Places
import Fool.Proofs.Parse.Quiet
import Fool.Proofs.Parse.Sound
import Fool.Proofs.Parse.Stream
import Fool.Proofs.Parse.Threads
import Fool.Proofs.Parse.Trees
import Fool.Proofs.Placing.Binding
import Fool.Proofs.Placing.Parse
import Fool.Proofs.Placing.Session
import Fool.Proofs.Placing.Tree
import Fool.Proofs.Renaming.Binding
import Fool.Proofs.Renaming.Interner
import Fool.Proofs.Renaming.Meaning
import Fool.Proofs.Renaming.Names
import Fool.Proofs.Renaming.Parse
import Fool.Proofs.Renaming.Session
import Fool.Proofs.Renaming.Tree
import Fool.Proofs.Semantics.Anchors
import Fool.Proofs.Semantics.CallFree
import Fool.Proofs.Semantics.Calls
import Fool.Proofs.Semantics.Closed
import Fool.Proofs.Semantics.Correct
import Fool.Proofs.Semantics.Effect
import Fool.Proofs.Semantics.Evaluator
import Fool.Proofs.Semantics.Follows
import Fool.Proofs.Semantics.Forms
import Fool.Proofs.Semantics.Frames
import Fool.Proofs.Semantics.Fuel
import Fool.Proofs.Semantics.Layout
import Fool.Proofs.Semantics.Lookup
import Fool.Proofs.Semantics.Objects
import Fool.Proofs.Semantics.Returns
import Fool.Proofs.Semantics.Separation
import Fool.Proofs.Semantics.Simulates
import Fool.Proofs.Semantics.Stages
import Fool.Proofs.Semantics.Standing
import Fool.Proofs.Semantics.StaticChain
import Fool.Proofs.Semantics.Store
import Fool.Proofs.Semantics.Watch
import Fool.Proofs.Token.Cover
import Fool.Proofs.Token.Order
import Fool.Proofs.Token.Printing
import Fool.Proofs.Token.Rules
import Fool.Proofs.Token.Scanner
import Fool.Proofs.Tree.Chains
import Fool.Proofs.Tree.Descent
import Fool.Proofs.Tree.Layout
import Fool.Proofs.Tree.Nesting
import Fool.Proofs.Tree.Postorder
import Fool.Proofs.Tree.Refs
