import CommentMarkers.Session
import CommentMarkers.Workspace
import CommentMarkers.Proofs.ByteMachine
import CommentMarkers.Proofs.Tiling
import CommentMarkers.Proofs.ExactExtraction
import CommentMarkers.Proofs.WriteBack
import CommentMarkers.Proofs.Immunity
import CommentMarkers.Proofs.FileIsolation
import CommentMarkers.Proofs.PurgedRanges
import CommentMarkers.Proofs.PurgedAnnotations
import CommentMarkers.Proofs.PurgedBlanks
import CommentMarkers.Proofs.SmallLetters
import CommentMarkers.Proofs.Registrations
import CommentMarkers.Proofs.RegisteredLookups
import CommentMarkers.Proofs.ConfigDefinitions
import CommentMarkers.Proofs.PublishedConfigs
import CommentMarkers.Proofs.Positions
import CommentMarkers.Proofs.LineTracking
import CommentMarkers.Proofs.TextIntegrity
import CommentMarkers.Proofs.ReportedPurge
import CommentMarkers.Proofs.QuoteLimits
import CommentMarkers.Proofs.LongestMatch
import CommentMarkers.Proofs.ConfigLookups
import CommentMarkers.Proofs.JoinedAnnotations
import CommentMarkers.Proofs.WrittenConstructs
import CommentMarkers.Proofs.InsertedReferences
import CommentMarkers.Proofs.MarkerPolicies
import CommentMarkers.Proofs.LineEndings
import CommentMarkers.Proofs.ConfigPriority
