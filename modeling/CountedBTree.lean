import CountedBTree.Session.Nodes
import CountedBTree.Session.Trees
import CountedBTree.Session.Dictionaries
import CountedBTree.EntryStream
import CountedBTree.Scalar.Sample
import CountedBTree.Proofs.KeyOrder
import CountedBTree.Proofs.Runs
import CountedBTree.Proofs.Shape
import CountedBTree.Proofs.Division
import CountedBTree.Proofs.Descent
import CountedBTree.Proofs.NodeInsertion
import CountedBTree.Proofs.TrailInsertion
import CountedBTree.Proofs.Position
import CountedBTree.Proofs.Reaching
import CountedBTree.Proofs.Walk
import CountedBTree.Proofs.ValueChange
import CountedBTree.Proofs.TrailUpdate
import CountedBTree.Proofs.TreeInsertion
import CountedBTree.Proofs.KeyLookup
import CountedBTree.Proofs.TreeWrites
import CountedBTree.Proofs.TreeCheck
import CountedBTree.Proofs.TreeRuns
import CountedBTree.Proofs.StableInsertion
import CountedBTree.Proofs.TreeReading
import CountedBTree.Proofs.Places
import CountedBTree.Proofs.SessionSteps
import CountedBTree.Proofs.Bookmarks
import CountedBTree.Proofs.DictionaryMoves
import CountedBTree.Proofs.FreeStamps
import CountedBTree.Proofs.BookmarkValidity
import CountedBTree.Proofs.KeyMaps
import CountedBTree.Proofs.MapRuns
import CountedBTree.Proofs.OffsetBijection
import CountedBTree.Proofs.LastUpdate
import CountedBTree.Proofs.WalkRuns
import CountedBTree.Proofs.Interleaving
import CountedBTree.Proofs.Drains
import CountedBTree.Proofs.PlaceOrder
import CountedBTree.Proofs.BookmarkOrder
import CountedBTree.Proofs.Occupancy
import CountedBTree.Proofs.Strides
import CountedBTree.Proofs.DictionaryRuns
import CountedBTree.Proofs.Preconditions
import CountedBTree.Proofs.Answers
import CountedBTree.Proofs.Refusals
import CountedBTree.Proofs.NodeCheck
import CountedBTree.Proofs.CheckScope
import CountedBTree.Proofs.InsertionOutcome
import CountedBTree.Proofs.DictionaryEquality
import CountedBTree.Proofs.FirstOccurrence
import CountedBTree.Proofs.ValueWrites
import CountedBTree.Proofs.KeyRanges
import CountedBTree.Proofs.JumpLimits
import CountedBTree.Proofs.UpdateAgreement
import CountedBTree.Proofs.SplitCascade
import CountedBTree.Proofs.BulkConstruction
import CountedBTree.Proofs.StreamDecoding
import CountedBTree.Proofs.HintBounds
