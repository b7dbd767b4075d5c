import MarkupEditor.CommandLine.Arguments
import MarkupEditor.CommandLine.Run
import MarkupEditor.Config
import MarkupEditor.Document.Basic
import MarkupEditor.Document.Draft
import MarkupEditor.Document.Edit
import MarkupEditor.Document.File
import MarkupEditor.Document.InPlace
import MarkupEditor.Document.Loading
import MarkupEditor.Document.Numbering
import MarkupEditor.Document.Preview
import MarkupEditor.Document.Rebuild
import MarkupEditor.Document.Record
import MarkupEditor.Document.View
import MarkupEditor.Geometry
import MarkupEditor.History.Recorder
import MarkupEditor.History.Stack
import MarkupEditor.Json.Basic
import MarkupEditor.Json.Read
import MarkupEditor.Json.Scan
import MarkupEditor.Json.Skip
import MarkupEditor.Json.Write
import MarkupEditor.Main
import MarkupEditor.Markup.CodeRun
import MarkupEditor.Markup.Cursor
import MarkupEditor.Markup.Location
import MarkupEditor.Markup.Node
import MarkupEditor.Markup.Parse
import MarkupEditor.Markup.ParseError
import MarkupEditor.Markup.PreviewTag
import MarkupEditor.Markup.Print
import MarkupEditor.Markup.Report
import MarkupEditor.Markup.Token
import MarkupEditor.Markup.Token.Code
import MarkupEditor.Markup.Token.Span
import MarkupEditor.Markup.Token.Tag
import MarkupEditor.Markup.TreeJson
import MarkupEditor.Markup.Walk
import MarkupEditor.OrderKey
import MarkupEditor.Outline
import MarkupEditor.Path
import MarkupEditor.Proofs.Document.Agreement
import MarkupEditor.Proofs.Document.Assembly
import MarkupEditor.Proofs.Document.Building
import MarkupEditor.Proofs.Document.Deleting
import MarkupEditor.Proofs.Document.Drafts
import MarkupEditor.Proofs.Document.Forms
import MarkupEditor.Proofs.Document.Histories
import MarkupEditor.Proofs.Document.Homes
import MarkupEditor.Proofs.Document.InPlace
import MarkupEditor.Proofs.Document.Loading
import MarkupEditor.Proofs.Document.Mirror
import MarkupEditor.Proofs.Document.Moves
import MarkupEditor.Proofs.Document.Numbers
import MarkupEditor.Proofs.Document.Opening
import MarkupEditor.Proofs.Document.Orderly
import MarkupEditor.Proofs.Document.Origins
import MarkupEditor.Proofs.Document.Overlays
import MarkupEditor.Proofs.Document.Pinned
import MarkupEditor.Proofs.Document.Planting
import MarkupEditor.Proofs.Document.Ranges
import MarkupEditor.Proofs.Document.Reconstruction
import MarkupEditor.Proofs.Document.Recording
import MarkupEditor.Proofs.Document.Renumbering
import MarkupEditor.Proofs.Document.Reopening
import MarkupEditor.Proofs.Document.Restoring
import MarkupEditor.Proofs.Document.Roots
import MarkupEditor.Proofs.Document.Rows
import MarkupEditor.Proofs.Document.Runs
import MarkupEditor.Proofs.Document.Selecting
import MarkupEditor.Proofs.Document.Separation
import MarkupEditor.Proofs.Document.Shapes
import MarkupEditor.Proofs.Document.Subtrees
import MarkupEditor.Proofs.Document.Touching
import MarkupEditor.Proofs.Document.Usage
import MarkupEditor.Proofs.Document.Values
import MarkupEditor.Proofs.Document.Viewing
import MarkupEditor.Proofs.History.Command
import MarkupEditor.Proofs.History.Timeline
import MarkupEditor.Proofs.Json.Forms
import MarkupEditor.Proofs.Json.Settings
import MarkupEditor.Proofs.Json.Written
import MarkupEditor.Proofs.Markup.Advancing
import MarkupEditor.Proofs.Markup.Brackets
import MarkupEditor.Proofs.Markup.CodeFree
import MarkupEditor.Proofs.Markup.CodeScan
import MarkupEditor.Proofs.Markup.Elements
import MarkupEditor.Proofs.Markup.Faults
import MarkupEditor.Proofs.Markup.Grammar
import MarkupEditor.Proofs.Markup.Lines
import MarkupEditor.Proofs.Markup.Literals
import MarkupEditor.Proofs.Markup.Nesting
import MarkupEditor.Proofs.Markup.Places
import MarkupEditor.Proofs.Markup.Recast
import MarkupEditor.Proofs.Markup.Refilling
import MarkupEditor.Proofs.Markup.ReportLines
import MarkupEditor.Proofs.Markup.Reports
import MarkupEditor.Proofs.Markup.Reread
import MarkupEditor.Proofs.Markup.Reshape
import MarkupEditor.Proofs.Markup.Rewriting
import MarkupEditor.Proofs.Markup.RoundTrip
import MarkupEditor.Proofs.Markup.Sound
import MarkupEditor.Proofs.Markup.Spelling
import MarkupEditor.Proofs.Markup.Starts
import MarkupEditor.Proofs.Markup.Tagging
import MarkupEditor.Proofs.Markup.Tiling
import MarkupEditor.Proofs.Markup.TokenRules
import MarkupEditor.Proofs.OrderKeys
import MarkupEditor.Proofs.OrderKeys.Length
import MarkupEditor.Proofs.OrderKeys.Room
import MarkupEditor.Proofs.Session.Failing
import MarkupEditor.Proofs.Session.Pending
import MarkupEditor.Proofs.Session.Saving
import MarkupEditor.Proofs.Storage.FileTree
import MarkupEditor.Proofs.Storage.Files
import MarkupEditor.Proofs.Store.Below
import MarkupEditor.Proofs.Store.ChildIndex
import MarkupEditor.Proofs.Store.Children
import MarkupEditor.Proofs.Store.Contents
import MarkupEditor.Proofs.Store.Forest
import MarkupEditor.Proofs.Store.Instances
import MarkupEditor.Proofs.Store.Layout
import MarkupEditor.Proofs.Store.Paths
import MarkupEditor.Proofs.Store.UndoRedo
import MarkupEditor.Proofs.Store.Views
import MarkupEditor.Proofs.Text.Utf8
import MarkupEditor.Session.Basic
import MarkupEditor.Session.Feed
import MarkupEditor.Session.InPlace
import MarkupEditor.Storage.Basic
import MarkupEditor.Storage.Fault
import MarkupEditor.Storage.FileTree
import MarkupEditor.Store.Basic
import MarkupEditor.Store.Bench
import MarkupEditor.Store.ChildIndex
import MarkupEditor.Store.Children
import MarkupEditor.Store.Forest
import MarkupEditor.Store.IdSet
import MarkupEditor.Store.Instances
import MarkupEditor.Store.Observed
import MarkupEditor.Text.Blank
import MarkupEditor.Text.Checksum
import MarkupEditor.Text.Decimal
import MarkupEditor.Text.GraphemeExtend
import MarkupEditor.Text.Printable
import MarkupEditor.Text.Quoted
import MarkupEditor.Text.Real
import MarkupEditor.Text.Utf8
import MarkupEditor.Text.Width
